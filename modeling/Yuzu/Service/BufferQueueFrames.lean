/-
  File:      Yuzu/Service/BufferQueueFrames.lean
  Subject:   The order in which a buffer queue presents frames, and the slots it may use.

  A frame that comes in takes the place of a front that may be dropped, whatever stands behind the
  front. As long as nothing stands behind it, frames are presented in order
  (`frames_in_order`); otherwise a newer frame is presented before an older one
  (`frames_out_of_order`).

  The number of slots in use is an override or follows from the slots. `SetPreallocatedBuffer` sets
  the override to a number of slots, whichever slots are in use, and `SetBufferCount` keeps the
  slots in use when there are preallocated ones: slots can end up beyond the maximum
  (`slot_beyond_maximum`). `slots_inside` says for which calls they do not.
-/
import Yuzu.Service.BufferQueueOwnership

namespace Yuzu.Service

open List Function

namespace BufferQueueCore

variable {core core' : BufferQueueCore} {op : Op} {s : SlotIndex}

/-! ## 1. Frames in order -/

/-- The numbers of the frames that a run of operations hands to the consumer, in order. -/
def presented (core : BufferQueueCore) (ops : List Op) : List Nat :=
  (replies apply core ops).filterMap Reply.frame

/-- `QueueBuffer` does not refuse the call. -/
def AcceptsFrame (core : BufferQueueCore) (slot : Int) (input : QueueBufferInput) : Prop :=
  ∃ output, (core.queueBuffer slot input).1 = .output output

/-- A frame that comes in finds nothing behind a front that may be dropped, and the frame counter
does not wrap. -/
def KeepsOrder (core : BufferQueueCore) : Op → Prop
  | .queueBuffer slot input => core.AcceptsFrame slot input →
    (∀ front ∈ core.queue.head?, front.isDroppable = true → core.queue.length = 1) ∧
      core.frameCounter + 1 < 2 ^ 64
  | _ => True

/-- **The frames that wait are in order**, all later than the last one presented. -/
structure Ordered (core : BufferQueueCore) (last : Nat) : Prop where
  sorted : core.queue.Pairwise fun a b => a.frameNumber < b.frameNumber
  waiting : ∀ item ∈ core.queue, last < item.frameNumber ∧ item.frameNumber ≤ core.frameCounter
  past : last ≤ core.frameCounter

theorem Ordered.suffix {last : Nat} {queue : List BufferItem} (h : core.Ordered last)
    (hs : queue <:+ core.queue) (slots : Slots) :
    Ordered { core with slots := slots, queue := queue } last :=
  ⟨h.sorted.sublist hs.sublist, fun item hi => h.waiting item (hs.mem hi), h.past⟩

/-- A new frame at the end, or in the place of the only one. -/
theorem Ordered.pushItem {last : Nat} (h : core.Ordered last) (core' : BufferQueueCore) (item : BufferItem)
    (hone : ∀ front ∈ core.queue.head?, front.isDroppable = true → core.queue.length = 1)
    (hi : item.frameNumber = core.frameCounter + 1) (hf : core'.frameCounter = core.frameCounter + 1)
    (hq : core'.queue = core.queue) :
    Ordered (core'.pushItem item) last := by
  have hlast : last ≤ core'.frameCounter := by
    have := h.past
    omega
  rcases pushItem_cases core' item with ⟨front, rest, hqr, hd, e⟩ | ⟨-, e⟩
  · have hl := hone front (by rw [← hq, hqr]; rfl) hd
    have hr : rest = [] := by
      rw [← hq, hqr, length_cons] at hl
      exact eq_nil_of_length_eq_zero (by omega)
    rw [e, hr]
    refine ⟨pairwise_singleton _ _, fun a ha => ?_, hlast⟩
    rw [mem_singleton.mp ha]
    have := h.past
    refine ⟨by omega, ?_⟩
    dsimp only
    omega
  · rw [e]
    refine ⟨?_, fun a ha => ?_, hlast⟩
    · dsimp only
      rw [hq, pairwise_append]
      refine ⟨h.sorted, pairwise_singleton _ _, fun a ha b hb => ?_⟩
      rw [mem_singleton.mp hb, hi]
      exact Nat.lt_succ_of_le (h.waiting a ha).2
    · dsimp only at ha ⊢
      rw [hq] at ha
      rcases mem_append.mp ha with ha | ha
      · have := h.waiting a ha
        omega
      · rw [mem_singleton.mp ha]
        have := h.past
        omega

/-- **A step keeps the order**, and a frame it presents is later than the last one. -/
theorem Ordered.step {last : Nat} (h : core.Ordered last) (hk : core.KeepsOrder op) :
    ((core.apply op).1.frame = none ∧ (core.apply op).2.Ordered last) ∨
      ∃ frame, (core.apply op).1.frame = some frame ∧ last < frame ∧ (core.apply op).2.Ordered frame := by
  obtain ⟨p, hp⟩ : ∃ p, p = core.apply op := ⟨_, rfl⟩
  have hc := apply_change core op
  rw [← hp] at hc ⊢
  cases hc with
  | moved hr hq hf _ _ =>
    refine .inl ⟨hr, hq ▸ h.sorted, fun item hi => ?_, hf ▸ h.past⟩
    rw [hf]
    exact h.waiting item (hq ▸ hi)
  | emptied hr hq hf _ =>
    refine .inl ⟨hr, ?_, fun item hi => ?_, hf ▸ h.past⟩
    · rw [hq]
      exact .nil
    · rw [hq] at hi
      cases hi
  | pushed slot s b input hr _ _ e =>
    obtain ⟨output, ho⟩ := hr
    refine .inl ⟨by rw [ho]; rfl, ?_⟩
    obtain ⟨hone, hwrap⟩ := hk ⟨output, by rw [← ho, hp]; rfl⟩
    rw [e]
    have hn : (core.frameCounter + 1) % 2 ^ 64 = core.frameCounter + 1 := Nat.mod_eq_of_lt hwrap
    have hpush := h.pushItem (core.countFrame s input.fence)
      ((core.countFrame s input.fence).itemOf s input) hone hn hn rfl
    exact ⟨hpush.sorted, hpush.waiting, hpush.past⟩
  | later slots front rest expected hd _ =>
    refine .inl ⟨rfl, h.suffix ?_ slots⟩
    rw [show front :: rest = (dropLoop expected core.slots core.queue).2 from congrArg Prod.snd hd]
    exact dropLoop_suffix _ _ _
  | shown slots front rest expected _ hd =>
    have hs : front :: rest <:+ core.queue := by
      rcases hd with hd | hd
      · rw [show front :: rest = core.queue from congrArg Prod.snd hd]
      · rw [show front :: rest = (dropLoop expected core.slots core.queue).2 from
          congrArg Prod.snd hd]
        exact dropLoop_suffix _ _ _
    have hsub := h.suffix hs slots
    obtain ⟨hlt, hsorted⟩ := pairwise_cons.mp hsub.sorted
    obtain ⟨hfront, hle⟩ := hsub.waiting front mem_cons_self
    refine .inr ⟨front.frameNumber, ?_, hfront, hsorted, fun item hi => ⟨hlt item hi, ?_⟩, hle⟩
    · simp only [takeFront, Reply.frame]
      split_ifs <;> rfl
    · exact (hsub.waiting item (mem_cons_of_mem _ hi)).2

theorem Ordered.presented {last : Nat} (h : core.Ordered last) {ops : List Op}
    (hk : AllSteps apply KeepsOrder core ops) :
    (last :: core.presented ops).Pairwise (· < ·) := by
  induction ops generalizing core last with
  | nil => exact pairwise_singleton _ _
  | cons op ops ih =>
    rw [BufferQueueCore.presented, replies]
    rcases h.step hk.1 with ⟨hr, hn⟩ | ⟨frame, hr, hlt, hn⟩
    · rw [filterMap_cons_none hr]
      exact ih hn hk.2
    · rw [filterMap_cons_some hr]
      have hrun := ih hn hk.2
      rw [pairwise_cons]
      refine ⟨fun a ha => ?_, hrun⟩
      rcases mem_cons.mp ha with rfl | ha
      · exact hlt
      · exact hlt.trans ((pairwise_cons.mp hrun).1 a ha)

/-- **Frames in order.** In every run from a new queue whose incoming frames never find anything
behind a front that may be dropped, the frames presented have increasing numbers. -/
theorem frames_in_order (ops : List Op) (hk : AllSteps apply KeepsOrder {} ops) :
    (presented {} ops).Pairwise (· < ·) := by
  have h : Ordered {} 0 := ⟨.nil, fun _ h => (nomatch h), le_rfl⟩
  exact (pairwise_cons.mp (h.presented hk)).2

/-- A frame of one pixel, presented whenever it comes up. -/
def pixelInput (async : Bool) : QueueBufferInput where
  timestamp := 0
  isAutoTimestamp := true
  crop := {}
  scalingMode := .freeze
  transform := 0#32
  async := async
  swapInterval := 1
  fence := {}

def pixelRequest : DequeueRequest := ⟨false, 1#32, 1#32, .rgba8888, 0#32⟩

/-- The producer takes a slot and queues a frame in it. -/
def produceFrame (slot : Int) (async : Bool) : List Op :=
  [.dequeueBuffer pixelRequest, .requestBuffer slot, .queueBuffer slot (pixelInput async)]

/-- Both sides connect, and the producer asks for some slots. -/
def openQueue (bufferCount : Int) : List Op :=
  [.consumerConnect true false, .connect .egl false, .setBufferCount bufferCount]

/-- Two frames go through the queue one after the other. -/
def twoFramesRun : List Op :=
  openQueue 2 ++ produceFrame 0 true ++ [.acquireBuffer 0, .releaseBuffer 0 1] ++
    produceFrame 0 true ++ [.acquireBuffer 0]

/-- Frames 1, 2 and 3 wait, the second one queued asynchronously. The first is presented, which
leaves the second in front, and frame 4 comes in its place. -/
def overtakingRun : List Op :=
  openQueue 4 ++ produceFrame 0 false ++ produceFrame 1 true ++ produceFrame 2 false ++
    [.acquireBuffer 0] ++ produceFrame 3 false ++
    [.releaseBuffer 0 1, .acquireBuffer 0, .releaseBuffer 3 4, .acquireBuffer 0]

/-- Frame 4 is presented before frame 3. -/
theorem frames_out_of_order : presented {} overtakingRun = [1, 4, 3] ∧
    ¬(presented {} overtakingRun).Pairwise (· < ·) := by
  decide +kernel

theorem frames_in_order_twoFrames : AllSteps apply KeepsOrder {} twoFramesRun ∧
    (presented {} twoFramesRun).Pairwise (· < ·) := by
  have hk : AllSteps apply KeepsOrder {} twoFramesRun := by
    refine ⟨trivial, trivial, trivial, trivial, trivial, fun _ => ⟨?_, ?_⟩, trivial, trivial,
      trivial, trivial, fun _ => ⟨?_, ?_⟩, trivial, trivial⟩ <;> decide +kernel
  exact ⟨hk, frames_in_order twoFramesRun hk⟩

/-! ## 2. Slots below the maximum -/

/-- The number of slots in use, as it was asked for. -/
def limit (core : BufferQueueCore) : Nat :=
  if core.overrideMaxBufferCount ≠ 0 then core.overrideMaxBufferCount else defaultMaxBufferCount

/-- **No slot in use is beyond the number asked for.** -/
def Inside (core : BufferQueueCore) : Prop :=
  ∀ s, (core.slots s).bufferState ≠ .free → s.val < core.limit

/-- `GetPreallocatedBufferCountLocked`, once the slot is preallocated too. -/
def preallocatedWith (core : BufferQueueCore) (t : SlotIndex) : Nat :=
  (List.finRange numBufferSlots).countP fun s => s = t || (core.slots s).isPreallocated

/-- The calls that leave the slots in use below the maximum: a new count that is accepted frees all
buffers or is above every slot in use, and a preallocated buffer leaves more preallocated slots than
the number of any other slot in use. -/
def KeepsInside (core : BufferQueueCore) : Op → Prop
  | .setBufferCount n => (core.setBufferCount n).1 = .status .noError →
    (n ≠ 0 ∧ core.getPreallocatedBufferCountLocked = 0) ∨ ∀ s, (core.slots s).bufferState ≠ .free →
        s.val < if n = 0 then defaultMaxBufferCount else n.toNat
  | .setPreallocatedBuffer slot (some _) => ∀ t, slotOf slot = some t →
    ∀ s, s ≠ t → (core.slots s).bufferState ≠ .free → s.val < core.preallocatedWith t
  | _ => True

theorem Inside.getMaxBufferCountLocked {async : Bool} (h : core.Inside) :
    core.getMaxBufferCountLocked async = core.limit := by
  by_cases ho : core.overrideMaxBufferCount = 0
  · have hl : core.limit = 2 := if_neg (not_not.mpr ho)
    rcases getMaxBufferCountLocked_default async ho with h2 | ⟨s, hs, hp, -⟩
    · rw [h2, hl]
    · have hn : (core.slots s).bufferState ≠ .free := by
        intro hf
        simp [preserves, hf] at hp
      have := h s hn
      omega
  · rw [getMaxBufferCountLocked_override ho, limit, if_pos ho]

/-- A slot comes into use in `DequeueBuffer` only, below the maximum. -/
theorem Owned.in_use (h : core.Owned) {p : Reply × BufferQueueCore} (hc : Change core op p)
    (s : SlotIndex) (hs : (p.2.slots s).bufferState ≠ .free) :
    (core.slots s).bufferState ≠ .free ∨ s.val < core.getMaxBufferCountLocked false := by
  cases hc with
  | moved _ _ _ _ hm =>
    rcases hm s with ⟨e, -⟩ | ⟨e, -⟩ | ⟨e, -⟩ | ⟨b, e, -⟩ | ⟨b, -, hb, -⟩
    · exact .inl (e ▸ hs)
    · exact absurd e hs
    · exact absurd e hs
    · exact absurd e hs
    · exact .inr hb
  | emptied _ _ _ hf => exact absurd (hf s).1 hs
  | pushed slot t b input _ ht _ e =>
    left
    rw [e] at hs
    have hst := (pushItem_slots (core.countFrame t input.fence)
      ((core.countFrame t input.fence).itemOf t input) s).bufferState hs
    by_cases hts : s = t
    · rw [hts, ht]
      decide
    · rw [countFrame_slots_of_ne hts] at hst
      exact hst ▸ hs
  | later slots front rest expected hd _ =>
    left
    have e : slots = (dropLoop expected core.slots core.queue).1 := congrArg Prod.fst hd
    have hdrop : DroppedSlot (core.slots s) (slots s) := e ▸ dropLoop_slots _ _ _ _
    exact hdrop.bufferState hs ▸ hs
  | shown slots front rest expected _ hd =>
    left
    have hdrop : DroppedSlot (core.slots s) (slots s) := by
      rcases hd with hd | hd
      · exact .inl (congrFun (congrArg Prod.fst hd) s)
      · have e : slots = (dropLoop expected core.slots core.queue).1 := congrArg Prod.fst hd
        exact e ▸ dropLoop_slots _ _ _ _
    have hf : (slots s).bufferState ≠ .free := by
      intro hf
      simp only [BufferQueueCore.takeFront, signalDequeueCondition] at hs
      split_ifs at hs with ht
      · by_cases hsf : s = front.slot
        · -- The slot of a tracked front is in state Queued.
          have hq := (h.dropped hd).tracks.queued front mem_cons_self ht
          rw [← hsf, hf] at hq
          cases hq
        · rw [update_of_ne hsf] at hs
          exact hs hf
      · exact hs hf
    exact hdrop.bufferState hf ▸ hf

theorem dequeueBuffer_overrideMaxBufferCount (r : DequeueRequest) :
    (core.dequeueBuffer r).2.overrideMaxBufferCount = core.overrideMaxBufferCount := by
  have h := dequeueBuffer_cases core r
  generalize core.dequeueBuffer r = d at h
  cases h with
  | idle reply core' hi _ _ => exact hi.overrideMaxBufferCount
  | taken t fence new rel core' core1 hi _ _ hr _ _ _ _ =>
    have e : core'.overrideMaxBufferCount = core1.overrideMaxBufferCount := by rw [hr]
    exact e.trans hi.overrideMaxBufferCount

theorem pushItem_overrideMaxBufferCount (item : BufferItem) :
    (core.pushItem item).overrideMaxBufferCount = core.overrideMaxBufferCount := by
  rcases pushItem_cases core item with ⟨front, rest, -, -, e⟩ | ⟨-, e⟩
  · rw [e]
  · rw [e]

theorem queueBuffer_overrideMaxBufferCount (slot : Int) (input : QueueBufferInput) :
    (core.queueBuffer slot input).2.overrideMaxBufferCount = core.overrideMaxBufferCount := by
  unfold queueBuffer
  dsimp only
  split_ifs
  · rfl
  · rfl
  · rfl
  · split
    · rfl
    · split_ifs
      · rfl
      · rfl
      · rfl
      · split
        · rfl
        · split_ifs
          · rfl
          · exact pushItem_overrideMaxBufferCount _

theorem acquireBuffer_overrideMaxBufferCount (expectedPresent : Int) :
    (core.acquireBuffer expectedPresent).2.overrideMaxBufferCount =
      core.overrideMaxBufferCount := by
  unfold acquireBuffer
  split_ifs
  · rfl
  · rfl
  · dsimp only
    split
    · rfl
    · split_ifs <;> rfl
  · dsimp only
    split
    · rfl
    · split_ifs <;> rfl

theorem Inside.of_override_eq (h : core.Inside) (ho : core.Owned)
    (e : (core.apply op).2.overrideMaxBufferCount = core.overrideMaxBufferCount) :
    (core.apply op).2.Inside := by
  intro s hs
  have hl : (core.apply op).2.limit = core.limit := by rw [limit, limit, e]
  rw [hl]
  rcases ho.in_use (apply_change core op) s hs with hu | hb
  · exact h s hu
  · rwa [h.getMaxBufferCountLocked] at hb

/-- **`SetBufferCount`** refuses, clears the override, or sets it; it frees all buffers on the way
if none is preallocated. -/
theorem setBufferCount_cases (core : BufferQueueCore) (n : Int) :
    (∃ status, status ≠ .noError ∧ core.setBufferCount n = (.status status, core)) ∨
    (n = 0 ∧ core.setBufferCount n =
      (.status .noError, signalDequeueCondition { core with overrideMaxBufferCount := 0 })) ∨
    (0 < n ∧ core.getPreallocatedBufferCountLocked = 0 ∧ core.setBufferCount n =
      (.status .noError, signalDequeueCondition
        { core.freeAllBuffersLocked with overrideMaxBufferCount := n.toNat })) ∨
    (0 < n ∧ core.getPreallocatedBufferCountLocked ≠ 0 ∧ core.setBufferCount n = (.status .noError,
        signalDequeueCondition { core with overrideMaxBufferCount := n.toNat })) := by
  unfold setBufferCount
  dsimp only
  split_ifs with _ _ _ h0 hneg hpre
  · exact .inl ⟨_, by decide, rfl⟩
  · exact .inl ⟨_, by decide, rfl⟩
  · exact .inl ⟨_, by decide, rfl⟩
  · exact .inr (.inl ⟨h0, rfl⟩)
  · exact .inl ⟨_, by decide, rfl⟩
  · have hmin : core.getMinMaxBufferCountLocked false = 0 := rfl
    exact .inr (.inr (.inl ⟨by omega, hpre, rfl⟩))
  · have hmin : core.getMinMaxBufferCountLocked false = 0 := rfl
    exact .inr (.inr (.inr ⟨by omega, hpre, rfl⟩))

theorem setBufferCount_inside {n : Int} (h : core.Inside) (hk : core.KeepsInside (.setBufferCount n)) :
    (core.setBufferCount n).2.Inside := by
  dsimp only [KeepsInside] at hk
  rcases setBufferCount_cases core n with ⟨st, -, e⟩ | ⟨h0, e⟩ | ⟨-, -, e⟩ | ⟨hpos, hpre, e⟩
  · rw [e]
    exact h
  · rw [e] at hk ⊢
    rcases hk rfl with hk | hk
    · exact absurd h0 hk.1
    · rw [if_pos h0] at hk
      exact hk
  · rw [e]
    exact fun s hs => absurd rfl hs
  · rw [e] at hk ⊢
    rcases hk rfl with hk | hk
    · exact absurd hk.2 hpre
    · rw [if_neg (by omega)] at hk
      have hn : n.toNat ≠ 0 := by omega
      exact fun s hs => (hk s hs).trans_eq (if_pos hn).symm

theorem getPreallocatedBufferCountLocked_update {t : SlotIndex} {new : BufferSlot}
    (hn : new.isPreallocated = true) (hs : core'.slots = Function.update core.slots t new) :
    core'.getPreallocatedBufferCountLocked = core.preallocatedWith t := by
  unfold getPreallocatedBufferCountLocked preallocatedWith
  congr 1
  funext s
  by_cases e : s = t
  · subst e
    simp [hs, hn]
  · simp [hs, e]

theorem preallocatedWith_pos (core : BufferQueueCore) (t : SlotIndex) : core.preallocatedWith t ≠ 0 := by
  rw [preallocatedWith, Ne, countP_eq_zero]
  intro h
  exact h t (mem_finRange t) (by simp)

theorem setPreallocatedBuffer_inside {slot : Int} {b : NvGraphicBuffer} (h : core.Inside)
    (hk : core.KeepsInside (.setPreallocatedBuffer slot (some b))) :
    (core.setPreallocatedBuffer slot (some b)).2.Inside := by
  unfold setPreallocatedBuffer
  split
  · exact h
  · rename_i t ht
    intro s hs
    dsimp only [signalDequeueCondition] at hs ⊢
    by_cases e : s = t
    · subst e
      rw [update_self] at hs
      exact absurd rfl hs
    · rw [update_of_ne e] at hs
      have hlt := hk t ht s e hs
      unfold limit
      dsimp only
      rw [getPreallocatedBufferCountLocked_update (t := t) rfl rfl]
      rwa [if_pos (preallocatedWith_pos core t)]

/-- **An allowed step keeps the slots in use below the maximum.** -/
theorem Inside.step (h : core.Inside) (ho : core.Owned) (hk : core.KeepsInside op) :
    (core.apply op).2.Inside := by
  cases op with
  | setBufferCount n => exact setBufferCount_inside h hk
  | setPreallocatedBuffer slot buffer =>
    cases buffer with
    | none =>
      refine h.of_override_eq ho ?_
      simp only [apply, setPreallocatedBuffer]
      split <;> rfl
    | some b => exact setPreallocatedBuffer_inside h hk
  | dequeueBuffer r => exact h.of_override_eq ho (dequeueBuffer_overrideMaxBufferCount r)
  | queueBuffer slot input =>
    exact h.of_override_eq ho (queueBuffer_overrideMaxBufferCount slot input)
  | acquireBuffer expected =>
    exact h.of_override_eq ho (acquireBuffer_overrideMaxBufferCount expected)
  | requestBuffer slot =>
    refine h.of_override_eq ho ?_
    simp only [apply, requestBuffer]
    split_ifs
    · rfl
    · split
      · rfl
      · split_ifs <;> rfl
  | detachBuffer slot =>
    refine h.of_override_eq ho ?_
    simp only [apply, detachBuffer]
    split_ifs
    · rfl
    · split
      · rfl
      · split_ifs <;> rfl
  | cancelBuffer slot fence =>
    refine h.of_override_eq ho ?_
    simp only [apply, cancelBuffer]
    split_ifs
    · rfl
    · split
      · rfl
      · split_ifs <;> rfl
  | connect api app =>
    refine h.of_override_eq ho ?_
    simp only [apply, connect]
    split_ifs <;> rfl
  | disconnect api =>
    refine h.of_override_eq ho ?_
    simp only [apply, disconnect]
    split_ifs <;> rfl
  | releaseBuffer slot frame =>
    refine h.of_override_eq ho ?_
    simp only [apply, releaseBuffer]
    split
    · rfl
    · split_ifs <;> rfl
  | consumerConnect listener app =>
    refine h.of_override_eq ho ?_
    simp only [apply, consumerConnect]
    split_ifs <;> rfl
  | consumerDisconnect =>
    refine h.of_override_eq ho ?_
    simp only [apply, consumerDisconnect]
    split_ifs <;> rfl

/-- The assertion of `WaitForFreeSlotThenRelock`, and the slots the producer has pass the range
check of `QueueBuffer`. -/
def SlotsInside (core : BufferQueueCore) : Prop :=
  ∀ async : Bool, (∀ s : SlotIndex, core.getMaxBufferCountLocked async ≤ s.val →
      (core.slots s).bufferState = .free) ∧
    ∀ s : SlotIndex, (core.slots s).bufferState = .dequeued → s.val < core.getMaxBufferCountLocked async

instance (core : BufferQueueCore) : Decidable core.SlotsInside :=
  inferInstanceAs (Decidable (∀ _ : Bool, _ ∧ _))

/-- **Slots inside the maximum.** In every run from a new queue whose calls all leave the slots in
use below the maximum they set, the assertion of `WaitForFreeSlotThenRelock` holds, and
`QueueBuffer` takes the number of every slot the producer has. -/
theorem slots_inside (ops : List Op) (hk : AllSteps apply KeepsInside {} ops) :
    (after apply {} ops).SlotsInside := by
  have h : (after apply {} ops).Owned ∧ (after apply {} ops).Inside := by
    refine hk.after (fun core => core.Owned ∧ core.Inside) (fun core op h hk => ?_) ?_
    · exact ⟨apply_owned h.1 op, h.2.step h.1 hk⟩
    · exact ⟨owned_default, fun s hs => absurd rfl hs⟩
  intro async
  rw [h.2.getMaxBufferCountLocked]
  refine ⟨fun s hs => ?_, fun s hs => h.2 s (by rw [hs]; decide)⟩
  by_contra hn
  have := h.2 s hn
  omega

/-- Both slots are with the producer when the first is preallocated: one slot is left in use. -/
def preallocatingRun : List Op :=
  [.setBufferCount 2, .dequeueBuffer pixelRequest, .dequeueBuffer pixelRequest,
    .setPreallocatedBuffer 0 (some ⟨1#32, 1#32, .rgba8888, 0#32⟩)]

/-- The second slot is beyond the maximum, while the producer has it. -/
theorem slot_beyond_maximum : (after apply {} preallocatingRun).getMaxBufferCountLocked false = 1 ∧
      ((after apply {} preallocatingRun).slots 1).bufferState = .dequeued ∧
      ¬(after apply {} preallocatingRun).SlotsInside := by
  decide +kernel

/-- Two slots are preallocated and counted, and the producer takes one. -/
def preallocatedRun : List Op :=
  [.setPreallocatedBuffer 0 (some ⟨1#32, 1#32, .rgba8888, 0#32⟩),
    .setPreallocatedBuffer 1 (some ⟨1#32, 1#32, .rgba8888, 0#32⟩), .setBufferCount 2,
    .dequeueBuffer pixelRequest]

theorem slots_inside_preallocated : AllSteps apply KeepsInside {} preallocatedRun ∧
    (after apply {} preallocatedRun).SlotsInside := by
  have hk : AllSteps apply KeepsInside {} preallocatedRun := by
    have hfree : ∀ s, ((after apply {} (preallocatedRun.take 1)).slots s).bufferState = .free := by
      decide +kernel
    refine ⟨fun t _ s _ hs => absurd rfl hs, fun t _ s _ hs => absurd (hfree s) hs,
      fun _ => .inr ?_, trivial, trivial⟩
    decide +kernel
  exact ⟨hk, slots_inside preallocatedRun hk⟩

end BufferQueueCore

end Yuzu.Service
