/-
  File:      Yuzu/Core/DeviceContinuity.lean
  Subject:   Block access of Core::DeviceMemoryManager (core/device_memory_manager.inc) over the
             continuity tracker, and the calls that keep the tracker right.

  Only `Map` writes the tracker. A range that is unmapped or mapped again inside a counted run
  leaves the count of the run's first pages as it was; block access then goes over pages that have
  other physical pages by now, or none.
-/
import Yuzu.Core.DeviceReverseMap

namespace Yuzu.Core

namespace DeviceMemoryManager

/-! ## 1. Block access -/

/-- `GetPointer`. -/
def getPointer (m : DeviceMemoryManager) (address : Nat) : Option Nat :=
  let physAddr := m.compressedPhysicalPtr (address >>> pageBits)
  if physAddr = 0 then none
  else some ((physAddr - 1) <<< pageBits + (address &&& (pageSize - 1)))

/-- `GetSpan`. -/
def getSpan (m : DeviceMemoryManager) (srcAddr size : Nat) : Option Nat :=
  if m.continuityTracker (srcAddr >>> pageBits) <<< pageBits ≥
      size + (srcAddr &&& (pageSize - 1)) then m.getPointer srcAddr
  else none

/-- The loop of `WalkBlock`. -/
def walkBlockLoop {σ : Type} (m : DeviceMemoryManager) (onUnmapped : Nat → σ → σ)
    (onMemory : Nat → Nat → σ → σ) (increment : Nat → σ → σ) : Nat → Nat → Nat → Nat → σ → σ
  | 0, _, _, _, s => s
  | fuel + 1, remainingSize, pageIndex, pageOffset, s =>
    if remainingSize = 0 then s
    else
      let nextPages := m.continuityTracker pageIndex
      let copyAmount := min (nextPages <<< pageBits - pageOffset) remainingSize
      let physAddr := m.compressedPhysicalPtr pageIndex
      let s := if physAddr = 0 then onUnmapped copyAmount s
        else onMemory copyAmount ((physAddr - 1) <<< pageBits + pageOffset) s
      walkBlockLoop m onUnmapped onMemory increment fuel (remainingSize - copyAmount)
        (pageIndex + nextPages) 0 (increment copyAmount s)

/-- `WalkBlock`: no count is 0, so each round takes a byte at least. -/
def walkBlock {σ : Type} (m : DeviceMemoryManager) (addr size : Nat) (onUnmapped : Nat → σ → σ)
    (onMemory : Nat → Nat → σ → σ) (increment : Nat → σ → σ) (s : σ) : σ :=
  walkBlockLoop m onUnmapped onMemory increment size size (addr >>> pageBits) (addr &&& (pageSize - 1)) s

/-- `ReadBlockUnsafe`, into the buffer from the offset on. -/
def readBlockUnsafe (m : DeviceMemoryManager) (phys : Nat → UInt8) (address : Nat)
    (destPointer : (Nat → UInt8) × Nat) (size : Nat) : (Nat → UInt8) × Nat :=
  m.walkBlock address size (fun copyAmount s => (copyBytes s.1 (fun _ => 0) s.2 0 copyAmount, s.2))
    (fun copyAmount srcPtr s => (copyBytes s.1 phys s.2 srcPtr copyAmount, s.2))
    (fun copyAmount s => (s.1, s.2 + copyAmount)) destPointer

/-- `WriteBlockUnsafe`, from the buffer from the offset on. -/
def writeBlockUnsafe (m : DeviceMemoryManager) (src : Nat → UInt8) (address : Nat)
    (phys : (Nat → UInt8) × Nat) (size : Nat) : (Nat → UInt8) × Nat :=
  m.walkBlock address size (fun _ s => s)
    (fun copyAmount dstPtr s => (copyBytes s.1 src dstPtr s.2 copyAmount, s.2))
    (fun copyAmount s => (s.1, s.2 + copyAmount)) phys

/-- The byte that device memory holds, 0 where there is no memory. -/
def byteAt (m : DeviceMemoryManager) (phys : Nat → UInt8) (address : Nat) : UInt8 :=
  match m.getPointer address with
  | some p => phys p
  | none => 0

/-- **Block access agrees with the translation of each address.** -/
structure BlockAccess (m : DeviceMemoryManager) : Prop where
  read : ∀ (phys dest : Nat → UInt8) (address size : Nat),
    (m.readBlockUnsafe phys address (dest, 0) size).1 =
      gathered (fun i => m.byteAt phys (address + i)) dest size
  write : ∀ (src phys : Nat → UInt8) (address size : Nat),
    (m.writeBlockUnsafe src address (phys, 0) size).1 =
      scattered (fun i => m.getPointer (address + i)) src phys size
  span : ∀ address size p, m.getSpan address size = some p →
    ∀ i < size, m.getPointer (address + i) = some (p + i)

/-! ## 2. A tracker that is right -/

variable {m : DeviceMemoryManager} {n p k : Nat}

/-- **The tracker is right**: the pages that a page counts follow each other in physical memory, or
    none of them has memory. -/
structure TrackerOk (m : DeviceMemoryManager) : Prop where
  pos : ∀ p, 0 < m.continuityTracker p
  run : ∀ p j, j < m.continuityTracker p → m.compressedPhysicalPtr (p + j) =
    if m.compressedPhysicalPtr p = 0 then 0 else m.compressedPhysicalPtr p + j

theorem TrackerOk.initial : TrackerOk {} := ⟨fun _ => Nat.one_pos, fun _ _ _ => rfl⟩

/-- The device memory of a manager whose tracker is right. -/
def toDeviceMemory (m : DeviceMemoryManager) (h : TrackerOk m) : DeviceMemory where
  compressedPhysicalPtr := m.compressedPhysicalPtr
  continuityTracker := m.continuityTracker
  tracker_pos := h.pos
  tracker_run := h.run

theorem walkBlock_eq {σ : Type} (h : TrackerOk m) {onUnmapped : Nat → σ → σ}
    {onMemory : Nat → Nat → σ → σ} {increment : Nat → σ → σ} {addr size : Nat} {s : σ} :
    m.walkBlock addr size onUnmapped onMemory increment s =
      (m.toDeviceMemory h).walkBlock addr size onUnmapped onMemory increment s := by
  have hloop : ∀ fuel rem page off s, m.walkBlockLoop onUnmapped onMemory increment fuel rem page off s =
        (m.toDeviceMemory h).walkBlockLoop onUnmapped onMemory increment fuel rem page off s := by
    intro fuel
    induction fuel with
    | zero => exact fun _ _ _ _ => rfl
    | succ fuel ih =>
      intro rem page off s
      rw [walkBlockLoop, DeviceMemory.walkBlockLoop]
      split
      · rfl
      · exact ih _ _ _ _
  exact hloop _ _ _ _ _

/-- **Where the tracker is right, block access is.** -/
theorem TrackerOk.blockAccess (h : TrackerOk m) : BlockAccess m where
  read phys dest address size := by
    have hgather := @DeviceMemory.readBlockUnsafe_gathered (m.toDeviceMemory h) size phys dest
        (fun i => m.byteAt phys (address + i)) address 0 fun j _ => by rw [Nat.zero_add]; rfl
    have hnone : gathered (fun i => m.byteAt phys (address + i)) dest 0 = dest := rfl
    rw [readBlockUnsafe, walkBlock_eq h]
    rw [hnone, Nat.zero_add] at hgather
    exact congrArg Prod.fst hgather
  write src phys address size := by
    have hscatter := @DeviceMemory.writeBlockUnsafe_scattered (m.toDeviceMemory h) size phys
        src (fun i => m.getPointer (address + i)) address 0 fun j _ => by rw [Nat.zero_add]; rfl
    rw [writeBlockUnsafe, walkBlock_eq h]
    rw [Nat.zero_add] at hscatter
    exact congrArg Prod.fst hscatter
  span address size p hspan i hi := by
    unfold getSpan at hspan
    split at hspan
    · next hle =>
      rw [Nat.shiftRight_eq_div_pow, Nat.shiftLeft_eq, pageSize, Nat.and_two_pow_sub_one_eq_mod] at hle
      have hrun : (m.toDeviceMemory h).getPointer (address + i) =
          ((m.toDeviceMemory h).getPointer address).map (· + i) :=
        DeviceMemory.getPointer_run (lt_of_lt_of_le
          (by rw [Nat.add_comm]; exact Nat.add_lt_add_right hi _) hle)
      exact hrun.trans (congrArg (Option.map (· + i)) hspan)
    · cases hspan

/-! ## 3. The tracker after `Map` -/

/-- The pages of a process range that a count of `k` from page `i` on stands for. -/
def FollowsFor (pages : Nat → Option Nat) (n i k : Nat) : Prop :=
  ∀ j < k, i + j < n ∧ pages (i + j) = (pages i).map (· + j)

variable {pages : Nat → Option Nat} {start : Nat}

theorem FollowsFor.step {i : Nat} {lastPtr : Option Nat} (hi : i < n)
    (hlast : lastPtr.isSome → lastPtr = pages (i + 1) ∧ FollowsFor pages n (i + 1) k) :
    FollowsFor pages n i (if follows (pages i) lastPtr then k + 1 else 1) := by
  have hself : i + 0 < n ∧ pages (i + 0) = (pages i).map (· + 0) := ⟨hi, by simp⟩
  split
  · next hfollows =>
    unfold follows at hfollows
    split at hfollows
    · next new last hnew =>
      obtain ⟨hpage, hrun⟩ := hlast rfl
      have hstep := of_decide_eq_true hfollows
      intro j hj
      cases j with
      | zero => exact hself
      | succ j =>
        obtain ⟨hlt, heq⟩ := hrun j (Nat.lt_of_succ_lt_succ hj)
        rw [← hpage] at heq
        rw [Nat.add_right_comm] at hlt heq
        refine ⟨hlt, ?_⟩
        rw [← Nat.add_assoc, heq, hnew, Option.map_some, Option.map_some, ← hstep]
        congr 1
        omega
    · cases hfollows
  · intro j hj
    obtain rfl : j = 0 := by omega
    exact hself

theorem FollowsFor.le {i : Nat} (h : FollowsFor pages n i k) : k ≤ n := by
  cases k with
  | zero => exact Nat.zero_le n
  | succ k => exact Nat.succ_le_of_lt (lt_of_le_of_lt (Nat.le_add_left k i) (h k k.lt_succ_self).1)

/-- **What `TrackContinuityImpl` counts**: for each page of the range a run of the range. The other
    counts stay. -/
theorem trackLoop_spec {tracker : Nat → Nat} {idx : Nat} {lastPtr : Option Nat} (hn : n < 2 ^ 32)
    (hidx : idx ≤ n)
    (hlast : lastPtr.isSome → lastPtr = pages idx ∧ FollowsFor pages n idx k) :
    (∀ i < idx, 0 < trackLoop start pages idx lastPtr k tracker (start + i) ∧
      FollowsFor pages n i (trackLoop start pages idx lastPtr k tracker (start + i))) ∧
    ∀ p, (∀ i < idx, p ≠ start + i) → trackLoop start pages idx lastPtr k tracker p = tracker p := by
  induction idx generalizing lastPtr k tracker with
  | zero => exact ⟨fun i hi => absurd hi (Nat.not_lt_zero i), fun _ _ => rfl⟩
  | succ idx ih =>
    rw [trackLoop]
    have hcount := FollowsFor.step (Nat.lt_of_succ_le hidx) hlast
    have hpos : 0 < if follows (pages idx) lastPtr then k + 1 else 1 := by split <;> omega
    generalize (if follows (pages idx) lastPtr then k + 1 else 1) = k' at hcount hpos ⊢
    have hu : u32 k' = k' := Nat.mod_eq_of_lt (lt_of_le_of_lt hcount.le hn)
    obtain ⟨hin, hout⟩ := @ih k' (Function.update tracker (start + idx) (u32 k')) (pages idx)
      (Nat.le_of_succ_le hidx)
      fun _ => ⟨rfl, hcount⟩
    refine ⟨fun i hi => ?_, fun p hp => ?_⟩
    · rcases Nat.lt_succ_iff_lt_or_eq.mp hi with hlt | rfl
      · exact hin i hlt
      · rw [hout (start + i) fun j hj => by omega, Function.update_self, hu]
        exact ⟨hpos, hcount⟩
    · rw [hout p fun i hi => hp i (Nat.lt_succ_of_lt hi)]
      exact Function.update_of_ne (hp idx idx.lt_succ_self) _ _

/-! ## 4. Physical pages after a call -/

/-- The word of a page that has a physical page, or none. -/
def ptrWord (ptr : Option Nat) : Nat := ptr.elim 0 (· + 1)

theorem mapPage_ptr_self {d : Nat} {ptr : Option Nat}
    (hptr : ∀ phys, ptr = some phys → phys < physicalPages) :
    (m.mapPage d ptr).compressedPhysicalPtr d = ptrWord ptr := by
  unfold mapPage
  cases ptr with
  | none => exact Function.update_self ..
  | some phys =>
    have hp : u32 (u32 phys + 1) = phys + 1 := by
      have := hptr phys rfl
      simp only [physicalPages, u32] at this ⊢
      omega
    dsimp only
    rw [hp]
    split
    · exact Function.update_self ..
    · split <;> exact Function.update_self ..

theorem mapPages_ptr_self (hpages : ∀ i < n, ∀ phys, pages i = some phys → phys < physicalPages)
    {i : Nat} (hi : i < n) :
    (m.mapPages start pages n).compressedPhysicalPtr (start + i) = ptrWord (pages i) := by
  induction n with
  | zero => exact absurd hi (Nat.not_lt_zero i)
  | succ n ih =>
    rw [mapPages]
    rcases Nat.lt_succ_iff_lt_or_eq.mp hi with hlt | rfl
    · rw [mapPage_ptr (by omega)]
      exact ih (fun j hj => hpages j (Nat.lt_succ_of_lt hj)) hlt
    · exact mapPage_ptr_self (hpages i hi)

theorem mapPage_tracker {d : Nat} {ptr : Option Nat} :
    (m.mapPage d ptr).continuityTracker = m.continuityTracker := by
  unfold mapPage
  cases ptr with
  | none => rfl
  | some phys =>
    dsimp only
    split
    · rfl
    · split <;> rfl

theorem mapPages_tracker : (m.mapPages start pages n).continuityTracker = m.continuityTracker := by
  induction n with
  | zero => rfl
  | succ n ih => rw [mapPages, mapPage_tracker, ih]

theorem unmapPage_eq {d : Nat} :
    (m.unmapPage d).compressedPhysicalPtr = Function.update m.compressedPhysicalPtr d 0 ∧
      (m.unmapPage d).continuityTracker = m.continuityTracker := by
  unfold unmapPage
  dsimp only
  split
  · split
    · exact ⟨rfl, rfl⟩
    · split <;> exact ⟨rfl, rfl⟩
  · exact ⟨rfl, rfl⟩

theorem unmapPages_eq : (m.unmapPages start n).continuityTracker = m.continuityTracker ∧
    ∀ p, (m.unmapPages start n).compressedPhysicalPtr p =
      if start ≤ p ∧ p < start + n then 0 else m.compressedPhysicalPtr p := by
  induction n with
  | zero => exact ⟨rfl, fun p => (if_neg (by omega)).symm⟩
  | succ n ih =>
    obtain ⟨htracker, hptr⟩ := ih
    rw [unmapPages, unmapPage_eq.2, unmapPage_eq.1]
    refine ⟨htracker, fun p => ?_⟩
    by_cases hp : p = start + n
    · rw [hp, Function.update_self, if_pos (by omega)]
    · rw [Function.update_of_ne hp, hptr p]
      by_cases hin : start ≤ p ∧ p < start + n
      · rw [if_pos hin, if_pos (by omega)]
      · rw [if_neg hin, if_neg (by omega)]

/-! ## 5. Calls that keep the tracker right -/

/-- A page of the range of a call. -/
def InRange (address size p : Nat) : Prop :=
  address >>> pageBits ≤ p ∧ p < address >>> pageBits + numPages size

end DeviceMemoryManager

open DeviceMemoryManager Option

/-- A mapping that is tracked, or an unmapping. -/
def DeviceCall.Tracks : DeviceCall → Prop
  | .map _ _ _ track => track = true
  | .unmap _ _ => True

/-- **A call keeps the counts.** What is mapped has no memory where a count from outside the range
    reaches it; what is unmapped has no part of a count's pages but all of them, or none. -/
def DeviceCall.KeepsCounts (m : DeviceMemoryManager) : DeviceCall → Prop
  | .map address pages size _ => ∀ p j, ¬ InRange address size p → j < m.continuityTracker p →
      InRange address size (p + j) → pages (p + j - address >>> pageBits) = none
  | .unmap address size => ∀ p j, j < m.continuityTracker p →
      ((InRange address size p ∨ m.compressedPhysicalPtr p = 0) ↔
        (InRange address size (p + j) ∨ m.compressedPhysicalPtr (p + j) = 0))

/-- The states that calls with a property of the state before lead to. -/
inductive DeviceCall.ReachableBy (P : DeviceMemoryManager → DeviceCall → Prop) :
    DeviceMemoryManager → Prop
  | initial : ReachableBy P {}
  | step {m : DeviceMemoryManager} {call : DeviceCall} (h : ReachableBy P m) (hcall : P m call) :
      ReachableBy P (call.run m)

namespace DeviceMemoryManager

variable {m : DeviceMemoryManager} {address size : Nat} {pages : Nat → Option Nat}

/-- **`Unmap`** of whole runs. -/
theorem TrackerOk.unmap (h : TrackerOk m) (hkeeps : (DeviceCall.unmap address size).KeepsCounts m) :
    TrackerOk (m.unmap address size) := by
  obtain ⟨htracker, hptr⟩ :=
    @DeviceMemoryManager.unmapPages_eq m (numPages size) (address >>> pageBits)
  refine ⟨fun p => ?_, fun p j hj => ?_⟩
  · rw [DeviceMemoryManager.unmap, htracker]
    exact h.pos p
  · rw [DeviceMemoryManager.unmap, htracker] at hj
    have hrun := h.run p j hj
    have hcut := hkeeps p j hj
    rw [DeviceMemoryManager.unmap, hptr, hptr]
    simp only [InRange] at hcut
    by_cases hp : address >>> pageBits ≤ p ∧ p < address >>> pageBits + numPages size
    · rw [if_pos hp, if_pos rfl]
      rcases hcut.mp (.inl hp) with hin | hzero
      · exact if_pos hin
      · rw [hzero, ite_self]
    · rw [if_neg hp]
      by_cases hzero : m.compressedPhysicalPtr p = 0
      · rw [if_pos hzero] at hrun ⊢
        rw [hrun, ite_self]
      · rw [if_neg hzero] at hrun ⊢
        have hout : ¬ (address >>> pageBits ≤ p + j ∧
            p + j < address >>> pageBits + numPages size) := fun hin =>
          (hcut.mpr (.inl hin)).elim hp hzero
        rw [if_neg hout, hrun]

theorem map_spec (hallowed : (DeviceCall.map address pages size true).Allowed m) : (∀ i < numPages size,
      (m.map address pages size true).compressedPhysicalPtr (address >>> pageBits + i) = ptrWord (pages i) ∧
      0 < (m.map address pages size true).continuityTracker (address >>> pageBits + i) ∧
      FollowsFor pages (numPages size) i
        ((m.map address pages size true).continuityTracker (address >>> pageBits + i))) ∧
    ∀ p, ¬ InRange address size p →
      (m.map address pages size true).compressedPhysicalPtr p = m.compressedPhysicalPtr p ∧
      (m.map address pages size true).continuityTracker p = m.continuityTracker p := by
  simp only [DeviceCall.Allowed] at hallowed
  have hn : numPages size < 2 ^ 32 := by
    by_contra hge
    have hlast := (hallowed (2 ^ 31) (lt_of_lt_of_le (by decide) (not_lt.mp hge))).2.1
    exact absurd hlast (Nat.not_lt.mpr (Nat.le_add_left _ _))
  obtain ⟨hin, hout⟩ := @DeviceMemoryManager.trackLoop_spec _ 1 pages (address >>> pageBits)
      (m.mapPages (address >>> pageBits) pages (numPages size)).continuityTracker _ none hn
      le_rfl (by simp)
  simp only [DeviceMemoryManager.map, if_true, trackContinuityImpl]
  refine ⟨fun i hi => ⟨?_, hin i hi⟩, fun p hp => ?_⟩
  · exact mapPages_ptr_self (fun i hi => (hallowed i hi).2.2.2) hi
  · have hne : ∀ i < numPages size, p ≠ address >>> pageBits + i := fun i hi heq =>
      hp ⟨heq ▸ Nat.le_add_right _ i, heq ▸ Nat.add_lt_add_left hi _⟩
    exact ⟨mapPages_ptr (numPages size) hne, (hout p hne).trans (by rw [mapPages_tracker])⟩

/-- **`Map`** beside the runs of other ranges. -/
theorem TrackerOk.map (h : TrackerOk m) (hallowed : (DeviceCall.map address pages size true).Allowed m)
    (hkeeps : (DeviceCall.map address pages size true).KeepsCounts m) :
    TrackerOk (m.map address pages size true) := by
  obtain ⟨hin, hout⟩ := map_spec hallowed
  have hcases : ∀ p, (∃ i < numPages size, p = address >>> pageBits + i) ∨ ¬ InRange address size p := by
    intro p
    by_cases hp : InRange address size p
    · obtain ⟨hle, hlt⟩ := hp
      exact .inl ⟨p - address >>> pageBits, by omega, by omega⟩
    · exact .inr hp
  simp only [DeviceCall.Allowed] at hallowed
  simp only [DeviceCall.KeepsCounts] at hkeeps
  generalize m.map address pages size true = m' at hin hout ⊢
  refine ⟨fun p => ?_, fun p j hj => ?_⟩
  · rcases hcases p with ⟨i, hi, rfl⟩ | hp
    · exact (hin i hi).2.1
    · rw [(hout p hp).2]
      exact h.pos p
  · rcases hcases p with ⟨i, hi, rfl⟩ | hp
    · -- a page of the range: its count was made now
      obtain ⟨hlt, hpage⟩ := (hin i hi).2.2 j hj
      rw [Nat.add_assoc, (hin _ hlt).1, (hin i hi).1, hpage]
      cases pages i with
      | none => rfl
      | some phys =>
        rw [ptrWord, ptrWord, map_some, elim_some, elim_some, if_neg (Nat.succ_ne_zero phys)]
        omega
    · -- a page beside it: what it counts of the range has no memory, before and now
      rw [(hout p hp).2] at hj
      have hrun := h.run p j hj
      rw [(hout p hp).1]
      rcases hcases (p + j) with ⟨i, hi, heq⟩ | hpj
      · have hnone := hkeeps p j hp hj ⟨by omega, by omega⟩
        rw [heq, Nat.add_sub_cancel_left] at hnone
        rw [heq, (hallowed i hi).2.2.1] at hrun
        have hzero : m.compressedPhysicalPtr p = 0 := by
          by_contra hne
          rw [if_neg hne] at hrun
          omega
        rw [heq, (hin i hi).1, hnone, if_pos hzero]
        rfl
      · rw [(hout _ hpj).1, hrun]

/-- **Block access in a run.** Where every call keeps the counts, block access agrees with the
    translation of each address in every state reached. -/
theorem blockAccess_of_keepsCounts (h : DeviceCall.ReachableBy
    (fun m call => call.Allowed m ∧ call.Tracks ∧ call.KeepsCounts m) m) : BlockAccess m := by
  refine TrackerOk.blockAccess ?_
  induction h with
  | initial => exact TrackerOk.initial
  | @step m call _ hcall ih =>
    obtain ⟨hallowed, htracks, hkeeps⟩ := hcall
    cases call with
    | map address pages size track =>
      obtain rfl : track = true := htracks
      exact ih.map hallowed hkeeps
    | unmap address size => exact ih.unmap hkeeps

/-- Two device pages mapped at once, to physical pages that follow each other. -/
def twoPages : DeviceCall := .map 0x1000 (fun i => some (5 + i)) 0x2000 true

theorem twoPages_allowed : twoPages.Allowed {} := by
  intro i hi
  have hi : i < 2 := hi
  have haddr : 0x1000 >>> pageBits = 1 := by decide
  refine ⟨by omega, by omega, rfl, fun phys hphys => ?_⟩
  cases hphys
  unfold physicalPages
  omega

/-- Block access after a range was mapped. -/
theorem blockAccess_of_twoPages : BlockAccess (twoPages.run {}) :=
  blockAccess_of_keepsCounts (.step .initial ⟨twoPages_allowed, rfl, fun p j hp hj hpj => by
    have hj : j < 1 := hj
    obtain rfl : j = 0 := by omega
    exact absurd hpj hp⟩)

/-- **The tail of a mapped range is unmapped**: the count of the page before it goes on, and a read
    over both gives what the unmapped page had. -/
theorem not_blockAccess_after_unmap : ¬ ∀ m,
    DeviceCall.ReachableBy (fun m call => call.Allowed m ∧ call.Tracks) m → BlockAccess m := by
  intro h
  have hreach : DeviceCall.ReachableBy (fun m call => call.Allowed m ∧ call.Tracks)
      ((DeviceCall.unmap 0x2000 0x1000).run (twoPages.run {})) :=
    .step (.step .initial ⟨twoPages_allowed, rfl⟩) ⟨trivial, trivial⟩
  have hread := congrFun ((h _ hreach).read (fun _ => 7) (fun _ => 0) 0x1fff 2) 1
  revert hread
  decide

end DeviceMemoryManager

end Yuzu.Core
