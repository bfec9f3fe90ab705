/-
  File:      Yuzu/Service/BufferQueueOwnership.lean
  Subject:   Who owns a slot of a buffer queue, over every run of operations.

  * `Tracks` -- the items still tracked and the slots in state Queued belong together;
  * `BufferQueueCore.Owned` -- the invariant: besides that, the consumer has one buffer at most, and
    the buffers in use have identities that were given out;
  * `BufferQueueCore.apply_owned` -- every operation keeps it;
  * `BufferQueueCore.slot_ownership` -- so a slot has one owner at a time.
-/
import Yuzu.Lib.Trace
import Yuzu.Service.BufferQueueSteps

namespace Yuzu.Service

open List Function

variable {core core' : BufferQueueCore} {s : SlotIndex}

/-! ## 1. Items and slots -/

variable {slots slots' : Slots} {queue : List BufferItem} {item front : BufferItem}

theorem stillTracking_iff : stillTracking slots item = true ↔
    ∃ b b', (slots item.slot).graphicBuffer = some b ∧ item.graphicBuffer = some b' ∧ b'.id = b.id := by
  unfold stillTracking
  split
  · rename_i b b' h h'
    simp [h, h']
  · rename_i hn
    constructor
    · intro h
      cases h
    · rintro ⟨b, b', h, h', -⟩
      exact absurd h' (hn b b' h)

theorem stillTracking_congr (h : (slots' item.slot).graphicBuffer = (slots item.slot).graphicBuffer) :
    stillTracking slots' item = stillTracking slots item := by
  unfold stillTracking
  rw [h]

/-- **Items and slots belong together**: an item still tracked is of a slot in state Queued, no two
are of one slot, and every slot in state Queued has one. -/
structure Tracks (slots : Slots) (queue : List BufferItem) : Prop where
  queued : ∀ item ∈ queue, stillTracking slots item = true → (slots item.slot).bufferState = .queued
  unique : queue.Pairwise fun a b =>
    stillTracking slots a = true → stillTracking slots b = true → a.slot ≠ b.slot
  tracked : ∀ s, (slots s).bufferState = .queued →
    ∃ item ∈ queue, stillTracking slots item = true ∧ item.slot = s

namespace Tracks

theorem perm {queue' : List BufferItem} (h : Tracks slots queue) (hp : queue.Perm queue') :
    Tracks slots queue' := by
  refine ⟨fun item hi => h.queued item (hp.mem_iff.mpr hi), ?_, fun s hs => ?_⟩
  · exact (hp.pairwise_iff fun hr ha hb => (hr hb ha).symm).mp h.unique
  · obtain ⟨item, hi, hr⟩ := h.tracked s hs
    exact ⟨item, hp.mem_iff.mp hi, hr⟩

/-- An item comes in with the slot it tracks. -/
theorem cons (h : Tracks slots queue) (hs : (slots item.slot).bufferState ≠ .queued)
    (new : BufferSlot) (hq : new.bufferState = .queued)
    (hb : new.graphicBuffer = (slots item.slot).graphicBuffer)
    (ht : stillTracking slots item = true) :
    Tracks (Function.update slots item.slot new) (item :: queue) := by
  have hcongr : ∀ a, stillTracking (Function.update slots item.slot new) a = stillTracking slots a := by
    intro a
    apply stillTracking_congr
    by_cases ha : a.slot = item.slot
    · rw [ha, update_self, hb]
    · rw [update_of_ne ha]
  have hne : ∀ a ∈ queue, stillTracking slots a = true → a.slot ≠ item.slot := by
    intro a ha hta e
    exact hs (e ▸ h.queued a ha hta)
  refine ⟨fun a ha hta => ?_, ?_, fun s hq' => ?_⟩
  · rcases mem_cons.mp ha with rfl | ha
    · rw [update_self, hq]
    · rw [hcongr] at hta
      rw [update_of_ne (hne a ha hta)]
      exact h.queued a ha hta
  · rw [pairwise_cons]
    refine ⟨fun a ha _ hta => ?_, h.unique.imp fun hr => ?_⟩
    · rw [hcongr] at hta
      exact (hne a ha hta).symm
    · rw [hcongr, hcongr]
      exact hr
  · by_cases e : s = item.slot
    · exact ⟨item, mem_cons_self, by rw [hcongr, ht], e.symm⟩
    · rw [update_of_ne e] at hq'
      obtain ⟨a, ha, hta, has⟩ := h.tracked s hq'
      exact ⟨a, mem_cons_of_mem _ ha, by rw [hcongr, hta], has⟩

/-- The front leaves; if it is tracked, its slot leaves the state Queued. -/
theorem tail (h : Tracks slots (front :: queue)) (new : BufferSlot) (hq : new.bufferState ≠ .queued)
    (hb : new.graphicBuffer = (slots front.slot).graphicBuffer) :
    Tracks (if stillTracking slots front then Function.update slots front.slot new else slots)
      queue := by
  have hu := pairwise_cons.mp h.unique
  by_cases hf : stillTracking slots front = true
  · rw [if_pos hf]
    have hcongr : ∀ a, stillTracking (Function.update slots front.slot new) a = stillTracking slots a := by
      intro a
      apply stillTracking_congr
      by_cases ha : a.slot = front.slot
      · rw [ha, update_self, hb]
      · rw [update_of_ne ha]
    refine ⟨fun a ha hta => ?_, ?_, fun s hs => ?_⟩
    · rw [hcongr] at hta
      rw [update_of_ne (hu.1 a ha hf hta).symm]
      exact h.queued a (mem_cons_of_mem _ ha) hta
    · refine hu.2.imp fun hr => ?_
      rw [hcongr, hcongr]
      exact hr
    · by_cases e : s = front.slot
      · rw [e, update_self] at hs
        exact absurd hs hq
      · rw [update_of_ne e] at hs
        obtain ⟨a, ha, hta, has⟩ := h.tracked s hs
        rcases mem_cons.mp ha with rfl | ha
        · exact absurd has.symm e
        · exact ⟨a, ha, by rw [hcongr, hta], has⟩
  · rw [if_neg hf]
    refine ⟨fun a ha => h.queued a (mem_cons_of_mem _ ha), hu.2, fun s hs => ?_⟩
    obtain ⟨a, ha, hta, has⟩ := h.tracked s hs
    rcases mem_cons.mp ha with rfl | ha
    · exact absurd hta hf
    · exact ⟨a, ha, hta, has⟩

theorem dropLoop (expectedPresent : Int) (h : Tracks slots queue) :
    Tracks (BufferQueueCore.dropLoop expectedPresent slots queue).1
      (BufferQueueCore.dropLoop expectedPresent slots queue).2 := by
  fun_induction BufferQueueCore.dropLoop expectedPresent slots queue with
  | case1 slots front next rest _ ih => exact ih (h.tail _ (by simp) rfl)
  | case2 => exact h
  | case3 => exact h

/-- Slots that move keep their items, if they are still in state Queued, and are not tracked
otherwise. -/
theorem moved (h : Tracks core.slots queue)
    (hf : ∀ item ∈ queue, ∀ b, item.graphicBuffer = some b → b.id < core.nextBuffer)
    (hm : ∀ s, BufferQueueCore.SlotMove core core' s) : Tracks core'.slots queue := by
  -- An item tracked afterwards was tracked before, by a slot that stays in state Queued.
  have hback : ∀ item ∈ queue, stillTracking core'.slots item = true →
      stillTracking core.slots item = true ∧ (core'.slots item.slot).bufferState = .queued := by
    intro item hi ht
    obtain ⟨b, b', hb, hb', hid⟩ := stillTracking_iff.mp ht
    have hlt := hf item hi b' hb'
    have hold : (core.slots item.slot).graphicBuffer = some b →
        stillTracking core.slots item = true := fun h => stillTracking_iff.mpr ⟨b, b', h, hb', hid⟩
    rcases hm item.slot with ⟨hs, hsb⟩ | ⟨-, hn, hsb⟩ | ⟨-, hsb⟩ | ⟨c, -, hsb, hc, -⟩ |
      ⟨c, hfree, -, -, hsb, hc⟩
    · have ht' := hold (hsb ▸ hb)
      exact ⟨ht', hs.trans (h.queued item hi ht')⟩
    · exact absurd (h.queued item hi (hold (hsb ▸ hb))) hn
    · rw [hsb] at hb
      cases hb
    · rw [hsb] at hb
      cases hb
      omega
    · rw [hsb] at hb
      cases hb
      rcases hc with hc | hc
      · have := h.queued item hi (hold hc)
        rw [hfree] at this
        cases this
      · omega
  refine ⟨fun item hi ht => (hback item hi ht).2, ?_, fun s hs => ?_⟩
  · refine h.unique.imp_of_mem fun ha hb hr hta htb => ?_
    exact hr (hback _ ha hta).1 (hback _ hb htb).1
  · rcases hm s with ⟨hst, hsb⟩ | ⟨hst, -, -⟩ | ⟨hst, -⟩ | ⟨c, hst, -⟩ | ⟨c, -, -, hst, -⟩
    · obtain ⟨item, hi, ht, rfl⟩ := h.tracked s (hst ▸ hs)
      exact ⟨item, hi, (stillTracking_congr hsb).trans ht, rfl⟩
    all_goals
      rw [hst] at hs
      cases hs

end Tracks

/-! ## 2. The invariant -/

namespace BufferQueueCore

/-- **The invariant.** -/
structure Owned (core : BufferQueueCore) : Prop where
  tracks : Tracks core.slots core.queue
  held : ∀ s, (core.slots s).bufferState = .dequeued → (core.slots s).graphicBuffer ≠ none
  slotIds : ∀ s b, (core.slots s).graphicBuffer = some b → b.id < core.nextBuffer
  itemIds : ∀ item ∈ core.queue, ∀ b, item.graphicBuffer = some b → b.id < core.nextBuffer
  acquired : core.countState numBufferSlots .acquired ≤ maxAcquiredBufferCount + 1

variable {state : BufferState}

theorem countState_eq_zero
    (h : ∀ s, (core.slots s).bufferState ≠ state) : core.countState numBufferSlots state = 0 := by
  rw [countState, countP_eq_zero]
  simpa using h

theorem not_of_countState_eq_zero (h : core.countState numBufferSlots state = 0) (s : SlotIndex) :
    (core.slots s).bufferState ≠ state := by
  rw [countState, countP_eq_zero] at h
  simpa using h s (mem_finRange s)

theorem countState_mono
    (h : ∀ s, (core'.slots s).bufferState = state → (core.slots s).bufferState = state) :
    core'.countState numBufferSlots state ≤ core.countState numBufferSlots state := by
  apply countP_mono_left
  intro s _ hs
  simp only [Bool.and_eq_true, beq_iff_eq] at hs ⊢
  exact ⟨hs.1, h s hs.2⟩

theorem countState_le_one (t : SlotIndex) (h : ∀ s, (core.slots s).bufferState = state → s = t) :
    core.countState numBufferSlots state ≤ 1 := by
  have hc : (List.finRange numBufferSlots).count t ≤ 1 :=
    nodup_iff_count_le_one.mp (nodup_finRange _) t
  refine le_trans (countP_mono_left fun s _ hs => ?_) hc
  simp only [Bool.and_eq_true, beq_iff_eq] at hs ⊢
  exact h s hs.2

theorem owned_default : Owned {} where
  tracks := ⟨fun _ h => (nomatch h), .nil, fun _ h => (nomatch h)⟩
  held := fun _ h => by cases h
  slotIds := fun _ _ h => by cases h
  itemIds := fun _ h => (nomatch h)
  acquired := (countState_eq_zero fun _ h => by cases h).le.trans (Nat.zero_le _)

theorem Owned.moved (h : core.Owned) (hq : core'.queue = core.queue)
    (hn : core.nextBuffer ≤ core'.nextBuffer)
    (hm : ∀ s, SlotMove core core' s) : core'.Owned := by
  refine ⟨?_, fun s hs => ?_, fun s b hb => ?_, fun item hi b hb => ?_, ?_⟩
  · rw [hq]
    exact h.tracks.moved h.itemIds hm
  · rcases hm s with ⟨e, eb⟩ | ⟨e, -⟩ | ⟨e, -⟩ | ⟨c, e, -⟩ | ⟨c, -, -, -, eb, -⟩
    · rw [eb]
      exact h.held s (e ▸ hs)
    · exact absurd (e.symm.trans hs) (by decide)
    · exact absurd (e.symm.trans hs) (by decide)
    · exact absurd (e.symm.trans hs) (by decide)
    · simp [eb]
  · rcases hm s with ⟨-, eb⟩ | ⟨-, -, eb⟩ | ⟨-, eb⟩ | ⟨c, -, eb, -, hc⟩ | ⟨c, -, -, -, eb, hc⟩
    · exact (h.slotIds s b (eb ▸ hb)).trans_le hn
    · exact (h.slotIds s b (eb ▸ hb)).trans_le hn
    · rw [eb] at hb
      cases hb
    · rw [eb] at hb
      cases hb
      exact hc
    · rw [eb] at hb
      cases hb
      rcases hc with hc | hc
      · exact (h.slotIds s b hc).trans_le hn
      · exact hc.2
  · rw [hq] at hi
    exact (h.itemIds item hi b hb).trans_le hn
  · refine le_trans (countState_mono fun s hs => ?_) h.acquired
    rcases hm s with ⟨e, -⟩ | ⟨e, -⟩ | ⟨e, -⟩ | ⟨c, e, -⟩ | ⟨c, -, -, e, -⟩
    · exact e ▸ hs
    all_goals exact absurd (e.symm.trans hs) (by decide)

theorem Owned.emptied (hq : core.queue = [])
    (hs : ∀ s, (core.slots s).bufferState = .free ∧ (core.slots s).graphicBuffer = none) :
    core.Owned where
  tracks := by
    refine ⟨?_, ?_, fun s h => ?_⟩
    · simp [hq]
    · simp [hq]
    · rw [(hs s).1] at h
      cases h
  held := fun s h => by
    rw [(hs s).1] at h
    cases h
  slotIds := fun s b h => by
    rw [(hs s).2] at h
    cases h
  itemIds := by simp [hq]
  acquired := by
    rw [countState_eq_zero fun s h => ?_]
    · exact Nat.zero_le _
    · rw [(hs s).1] at h
      cases h

/-- A slot whose frame is dropped is set free and keeps its buffer. -/
def DroppedSlot (old new : BufferSlot) : Prop :=
  new = old ∨ (new.bufferState = .free ∧ new.graphicBuffer = old.graphicBuffer)

theorem DroppedSlot.graphicBuffer {old new : BufferSlot} (h : DroppedSlot old new) :
    new.graphicBuffer = old.graphicBuffer := by
  rcases h with rfl | h
  · rfl
  · exact h.2

theorem DroppedSlot.bufferState {old new : BufferSlot} (h : DroppedSlot old new)
    (hn : new.bufferState ≠ .free) : new.bufferState = old.bufferState := by
  rcases h with rfl | h
  · rfl
  · exact absurd h.1 hn

theorem DroppedSlot.trans {a b c : BufferSlot} (h : DroppedSlot a b) (h' : DroppedSlot b c) :
    DroppedSlot a c := by
  rcases h' with rfl | ⟨hs, hb⟩
  · exact h
  · exact .inr ⟨hs, hb.trans h.graphicBuffer⟩

theorem droppedSlot_update (new : BufferSlot) (hs : new.bufferState = .free)
    (hb : new.graphicBuffer = (slots front.slot).graphicBuffer) (t : SlotIndex) :
    DroppedSlot (slots t)
      ((if stillTracking slots front then Function.update slots front.slot new else slots) t) := by
  split_ifs
  · by_cases ht : t = front.slot
    · subst ht
      rw [update_self]
      exact .inr ⟨hs, hb⟩
    · rw [update_of_ne ht]
      exact .inl rfl
  · exact .inl rfl

/-- The slots once a front that may be dropped gave way. -/
def replacedSlots (slots : Slots) (front : BufferItem) : Slots :=
  if stillTracking slots front then
    Function.update slots front.slot { slots front.slot with bufferState := .free, frameNumber := 0 }
  else slots

/-- **An item comes in** at the end, or in place of a front that may be dropped. -/
theorem pushItem_cases (core : BufferQueueCore) (item : BufferItem) :
    (∃ front rest, core.queue = front :: rest ∧ front.isDroppable = true ∧ core.pushItem item =
        { core with slots := replacedSlots core.slots front, queue := item :: rest }) ∨
    ((∀ front ∈ core.queue.head?, front.isDroppable = false) ∧
      core.pushItem item = { core with queue := core.queue ++ [item] }) := by
  unfold pushItem
  split
  · rename_i hq
    exact .inr ⟨by simp [hq], by rw [hq]; rfl⟩
  · rename_i front rest hq
    by_cases hd : front.isDroppable = true
    · exact .inl ⟨front, rest, hq, hd, if_pos hd⟩
    · refine .inr ⟨by simpa [hq] using hd, ?_⟩
      rw [if_neg hd, hq]

theorem pushItem_slots (core : BufferQueueCore) (item : BufferItem) (t : SlotIndex) :
    DroppedSlot (core.slots t) ((core.pushItem item).slots t) := by
  rcases pushItem_cases core item with ⟨front, rest, -, -, e⟩ | ⟨-, e⟩
  · rw [e]
    exact droppedSlot_update { core.slots front.slot with
        bufferState := .free
        frameNumber := 0 } rfl rfl t
  · rw [e]
    exact .inl rfl

theorem dropLoop_slots (expectedPresent : Int) (slots : Slots) (queue : List BufferItem)
    (t : SlotIndex) : DroppedSlot (slots t) ((dropLoop expectedPresent slots queue).1 t) := by
  fun_induction dropLoop expectedPresent slots queue with
  | case1 slots front next rest _ ih =>
    exact (droppedSlot_update { slots front.slot with bufferState := .free } rfl rfl t).trans ih
  | case2 => exact .inl rfl
  | case3 => exact .inl rfl

theorem dropLoop_suffix (expectedPresent : Int) (slots : Slots) (queue : List BufferItem) :
    (dropLoop expectedPresent slots queue).2 <:+ queue := by
  fun_induction dropLoop expectedPresent slots queue with
  | case1 slots front next rest _ ih => exact ih.trans (suffix_cons _ _)
  | case2 => exact suffix_refl _
  | case3 => exact suffix_refl _

theorem pushItem_tracks (h : Tracks core.slots (item :: core.queue)) :
    Tracks (core.pushItem item).slots (core.pushItem item).queue := by
  rcases pushItem_cases core item with ⟨front, rest, hq, -, e⟩ | ⟨-, e⟩
  · rw [e]
    rw [hq] at h
    exact (h.perm (.swap front item rest)).tail { core.slots front.slot with
        bufferState := .free
        frameNumber := 0 } (by simp) rfl
  · rw [e]
    exact h.perm (perm_append_singleton item core.queue).symm

theorem mem_pushItem_queue {a : BufferItem} (h : a ∈ (core.pushItem item).queue) :
    a = item ∨ a ∈ core.queue := by
  rcases pushItem_cases core item with ⟨front, rest, hq, -, e⟩ | ⟨-, e⟩
  · rw [e] at h
    rw [hq]
    rcases mem_cons.mp h with h | h
    · exact .inl h
    · exact .inr (mem_cons_of_mem _ h)
  · rw [e] at h
    rcases mem_append.mp h with h | h
    · exact .inr h
    · exact .inl (mem_singleton.mp h)

theorem countFrame_slots_of_ne {t : SlotIndex} (ht : t ≠ s) (fence : Fence) :
    (core.countFrame s fence).slots t = core.slots t := update_of_ne ht _ _

theorem countFrame_slots_self (fence : Fence) : (core.countFrame s fence).slots s = { core.slots s with
      fence := fence
      bufferState := .queued
      frameNumber := (core.frameCounter + 1) % 2 ^ 64 } := update_self _ _ _

theorem countFrame_graphicBuffer (fence : Fence) (t : SlotIndex) :
    ((core.countFrame s fence).slots t).graphicBuffer = (core.slots t).graphicBuffer := by
  by_cases ht : t = s
  · rw [ht, countFrame_slots_self]
  · rw [countFrame_slots_of_ne ht]

theorem pushItem_nextBuffer (core : BufferQueueCore) (item : BufferItem) :
    (core.pushItem item).nextBuffer = core.nextBuffer := by
  rcases pushItem_cases core item with ⟨front, rest, -, -, e⟩ | ⟨-, e⟩
  · rw [e]
  · rw [e]

theorem Owned.pushed {b : GraphicBuffer} {input : QueueBufferInput} (h : core.Owned)
    (hs : (core.slots s).bufferState = .dequeued) (hb : (core.slots s).graphicBuffer = some b) :
    Owned (signalDequeueCondition { (core.countFrame s input.fence).pushItem
      ((core.countFrame s input.fence).itemOf s input) with bufferHasBeenQueued := true }) := by
  obtain ⟨counted, hc⟩ : ∃ c, c = core.countFrame s input.fence := ⟨_, rfl⟩
  obtain ⟨item, hi⟩ : ∃ i, i = counted.itemOf s input := ⟨_, rfl⟩
  rw [← hc, ← hi]
  have hbuf : ∀ t, (counted.slots t).graphicBuffer = (core.slots t).graphicBuffer := by
    rw [hc]
    exact countFrame_graphicBuffer _
  have hib : item.graphicBuffer = some b := by
    rw [hi]
    exact (hbuf s).trans hb
  have hcq : counted.queue = core.queue := by
    rw [hc]
    rfl
  have hslot : item.slot = s := by rw [hi]; rfl
  have ht : stillTracking core.slots item = true :=
    stillTracking_iff.mpr ⟨b, b, hslot ▸ hb, hib, rfl⟩
  have hdrop := pushItem_slots counted item
  have hnext : (counted.pushItem item).nextBuffer = core.nextBuffer := by
    rw [pushItem_nextBuffer, hc]
    rfl
  refine ⟨pushItem_tracks ?_, fun t hd => ?_, fun t c hbc => ?_, fun a ha c hac => ?_, ?_⟩
  · have hn : (core.slots item.slot).bufferState ≠ .queued := by
      rw [hslot, hs]
      decide
    have hcons := h.tracks.cons hn { core.slots s with
        fence := input.fence
        bufferState := .queued
        frameNumber := (core.frameCounter + 1) % 2 ^ 64 } rfl (by rw [hslot]) ht
    rw [hcq]
    rw [hslot] at hcons
    rw [hc]
    exact hcons
  · have hst := (hdrop t).bufferState (fun e => absurd (e.symm.trans hd) (by decide))
    have hbt : ((counted.pushItem item).slots t).graphicBuffer = (core.slots t).graphicBuffer :=
      (hdrop t).graphicBuffer.trans (hbuf t)
    refine hbt ▸ h.held t ?_
    have hd' : (counted.slots t).bufferState = .dequeued := hst ▸ hd
    by_cases hts : t = s
    · rw [hts, hc, countFrame_slots_self] at hd'
      cases hd'
    · rwa [hc, countFrame_slots_of_ne hts] at hd'
  · exact hnext.symm ▸ h.slotIds t c (((hdrop t).graphicBuffer.trans (hbuf t)).symm.trans hbc)
  · refine hnext.symm ▸ ?_
    rcases mem_pushItem_queue ha with rfl | ha
    · exact h.slotIds s c (hb.trans (hib.symm.trans hac))
    · exact h.itemIds a (hcq ▸ ha) c hac
  · refine le_trans (countState_mono fun t hd => ?_) h.acquired
    have hst := (hdrop t).bufferState (fun e => absurd (e.symm.trans hd) (by decide))
    have hd' : (counted.slots t).bufferState = .acquired := hst ▸ hd
    by_cases hts : t = s
    · rw [hts, hc, countFrame_slots_self] at hd'
      cases hd'
    · rwa [hc, countFrame_slots_of_ne hts] at hd'

theorem Owned.dropped {rest : List BufferItem} (h : core.Owned) {expectedPresent : Int}
    (hd : (slots, rest) = (core.slots, core.queue) ∨
      (slots, rest) = dropLoop expectedPresent core.slots core.queue) :
    Owned { core with slots := slots, queue := rest } := by
  rcases hd with hd | hd
  · cases hd
    exact h
  · have hs : slots = (dropLoop expectedPresent core.slots core.queue).1 := by rw [← hd]
    have hr : rest = (dropLoop expectedPresent core.slots core.queue).2 := by rw [← hd]
    have hdrop : ∀ t, DroppedSlot (core.slots t) (slots t) := hs ▸ dropLoop_slots _ _ _
    refine ⟨?_, fun t hd => ?_, fun t b hb => ?_, fun a ha b hab => ?_, ?_⟩
    · rw [hs, hr]
      exact h.tracks.dropLoop expectedPresent
    · have hst := (hdrop t).bufferState (fun e => absurd (e.symm.trans hd) (by decide))
      exact (hdrop t).graphicBuffer ▸ h.held t (hst ▸ hd)
    · exact h.slotIds t b ((hdrop t).graphicBuffer ▸ hb)
    · have hsub : rest <:+ core.queue := hr ▸ dropLoop_suffix _ _ _
      exact h.itemIds a (hsub.mem ha) b hab
    · refine le_trans (countState_mono fun t hd => ?_) h.acquired
      have hst := (hdrop t).bufferState (fun e => absurd (e.symm.trans hd) (by decide))
      exact hst ▸ hd

theorem Owned.takeFront {rest : List BufferItem} (h : core.Owned)
    (hq : core.queue = front :: rest) (h0 : core.countState numBufferSlots .acquired = 0) :
    (core.takeFront front rest).2.Owned := by
  have hslot : ∀ t, (((core.takeFront front rest).2.slots t).bufferState = .acquired → t = front.slot) ∧
      ((core.takeFront front rest).2.slots t).graphicBuffer = (core.slots t).graphicBuffer ∧
      (((core.takeFront front rest).2.slots t).bufferState = .dequeued →
        (core.slots t).bufferState = .dequeued) := by
    intro t
    simp only [BufferQueueCore.takeFront, signalDequeueCondition]
    split_ifs
    · by_cases ht : t = front.slot
      · subst ht
        simp
      · rw [update_of_ne ht]
        exact ⟨fun e => absurd e (not_of_countState_eq_zero h0 t), rfl, id⟩
    · exact ⟨fun e => absurd e (not_of_countState_eq_zero h0 t), rfl, id⟩
  refine ⟨?_, fun t hd => ?_, fun t b hb => ?_, fun a ha b hab => ?_, ?_⟩
  · exact (hq ▸ h.tracks).tail _ (by simp) rfl
  · rw [(hslot t).2.1]
    exact h.held t ((hslot t).2.2 hd)
  · exact h.slotIds t b ((hslot t).2.1 ▸ hb)
  · exact h.itemIds a (hq ▸ mem_cons_of_mem _ ha) b hab
  · exact countState_le_one front.slot fun t e => (hslot t).1 e

theorem Owned.change {op : Op} {p : Reply × BufferQueueCore} (h : core.Owned)
    (hc : Change core op p) : p.2.Owned := by
  cases hc with
  | moved _ hq _ hn hm => exact h.moved hq hn hm
  | emptied _ hq _ hs => exact .emptied hq hs
  | pushed slot s b input _ hs hb e =>
    rw [e]
    exact h.pushed hs hb
  | later slots front rest expected hd _ => exact h.dropped (.inr hd)
  | shown slots front rest expected h0 hd =>
    refine (h.dropped hd).takeFront rfl (Nat.le_zero.mp ?_)
    refine le_trans (countState_mono fun t ht => ?_) h0.le
    rcases hd with hd | hd
    · have hs : slots = core.slots := congrArg Prod.fst hd
      exact hs ▸ ht
    · have hs : slots = (dropLoop expected core.slots core.queue).1 := by rw [← hd]
      have hdrop : DroppedSlot (core.slots t) (slots t) := hs ▸ dropLoop_slots _ _ _ _
      exact hdrop.bufferState (fun e => absurd (e.symm.trans ht) (by decide)) ▸ ht

/-- **Every operation keeps the invariant.** -/
theorem apply_owned (h : core.Owned) (op : Op) : (core.apply op).2.Owned :=
  h.change (apply_change core op)

theorem Owned.after (h : core.Owned) (ops : List Op) : (after apply core ops).Owned :=
  after_invariant Owned (fun _ op h => apply_owned h op) h ops

/-! ## 3. Slots the consumer has -/

theorem ne_of_bufferState {t : SlotIndex}
    (hs : (core.slots s).bufferState ≠ state) (ht : (core.slots t).bufferState = state) : s ≠ t := by
  rintro rfl
  exact hs ht

theorem requestBuffer_slots (slot : Int) (h : (core.slots s).bufferState ≠ .dequeued) :
    (core.requestBuffer slot).2.slots s = core.slots s := by
  unfold requestBuffer
  split_ifs
  · rfl
  · split
    · rfl
    · split_ifs with hd
      · rfl
      · exact setSlot_slots_of_ne (ne_of_bufferState h (not_not.mp hd)) _

theorem detachBuffer_slots (slot : Int) (h : (core.slots s).bufferState ≠ .dequeued) :
    (core.detachBuffer slot).2.slots s = core.slots s := by
  unfold detachBuffer
  split_ifs
  · rfl
  · split
    · rfl
    · split_ifs with hd
      · rfl
      · rfl
      · exact setSlot_slots_of_ne (ne_of_bufferState h (not_not.mp hd)) _

theorem cancelBuffer_slots (slot : Int) (fence : Fence) (h : (core.slots s).bufferState ≠ .dequeued) :
    (core.cancelBuffer slot fence).2.slots s = core.slots s := by
  unfold cancelBuffer
  split_ifs
  · rfl
  · split
    · rfl
    · split_ifs with hd
      · rfl
      · exact setSlot_slots_of_ne (ne_of_bufferState h (not_not.mp hd)) _

theorem connect_slots (api : NativeWindowApi) (app : Bool) :
    (core.connect api app).2.slots = core.slots := by
  unfold connect
  dsimp only
  split_ifs <;> rfl

theorem consumerConnect_slots (listener app : Bool) :
    (core.consumerConnect listener app).2.slots = core.slots := by
  unfold consumerConnect
  split_ifs <;> rfl

theorem Idle.slots_of_not_free (h : Idle core core') (hs : (core.slots s).bufferState ≠ .free) :
    core'.slots s = core.slots s := by
  rcases h.slots s with e | ⟨hf, -⟩
  · exact e
  · exact absurd hf hs

theorem dequeueBuffer_slots (r : DequeueRequest) (hs : (core.slots s).bufferState ≠ .free) :
    (core.dequeueBuffer r).2.slots s = core.slots s := by
  have h := dequeueBuffer_cases core r
  generalize core.dequeueBuffer r = d at h
  cases h with
  | idle reply core' hi _ _ => exact hi.slots_of_not_free hs
  | taken t fence new rel core' core1 hi _ hf _ _ ho _ _ =>
    rw [ho s (ne_of_bufferState hs hf), hi.slots_of_not_free hs]

/-- A slot the consumer has is not in the way of a frame that comes in. -/
theorem pushed_slots (h : core.Owned) {t : SlotIndex} {input : QueueBufferInput}
    (ht : (core.slots t).bufferState = .dequeued) (hs : (core.slots s).bufferState = .acquired) :
    ((core.countFrame t input.fence).pushItem
      ((core.countFrame t input.fence).itemOf t input)).slots s = core.slots s := by
  have hst : s ≠ t := by
    rintro rfl
    rw [hs] at ht
    cases ht
  have hc : (core.countFrame t input.fence).slots s = core.slots s :=
    countFrame_slots_of_ne hst input.fence
  rcases pushItem_cases (core.countFrame t input.fence)
    ((core.countFrame t input.fence).itemOf t input) with ⟨front, rest, hq, -, e⟩ | ⟨-, e⟩
  · rw [e]
    dsimp only
    unfold replacedSlots
    split_ifs with htr
    · rw [update_of_ne, hc]
      rintro rfl
      rw [stillTracking_congr (countFrame_graphicBuffer _ _)] at htr
      have hq' := h.tracks.queued front (by rw [show core.queue = front :: rest from hq]; simp) htr
      rw [hs] at hq'
      cases hq'
    · exact hc
  · rw [e]
    exact hc

theorem queueBuffer_slots (h : core.Owned) (slot : Int) (input : QueueBufferInput)
    (hs : (core.slots s).bufferState = .acquired) :
    (core.queueBuffer slot input).2.slots s = core.slots s := by
  unfold queueBuffer
  dsimp only
  split_ifs
  · rfl
  · rfl
  · rfl
  · split
    · rfl
    · split_ifs with _ hd
      · rfl
      · rfl
      · rfl
      · split
        · rfl
        · split_ifs
          · rfl
          · exact pushed_slots h (not_not.mp hd) hs

theorem acquireBuffer_of_acquired (expectedPresent : Int) (hs : (core.slots s).bufferState = .acquired) :
    core.acquireBuffer expectedPresent = (.status .invalidOperation, core) := by
  unfold acquireBuffer
  rw [if_pos]
  by_contra hc
  have h0 : core.countState numBufferSlots .acquired = 0 := by
    rw [maxAcquiredBufferCount] at hc
    omega
  exact not_of_countState_eq_zero h0 s hs

end BufferQueueCore

/-- The operations that take a slot back from the consumer without its doing. -/
def Op.Frees (s : SlotIndex) : Op → Prop
  | .setBufferCount _ => True
  | .disconnect _ => True
  | .consumerDisconnect => True
  | .setPreallocatedBuffer slot _ => slot = s.val
  | _ => False

namespace BufferQueueCore

theorem releaseBuffer_slots (slot : Int) (frame : Nat) (hs : (core.slots s).bufferState = .acquired) :
    (core.releaseBuffer slot frame).2.slots s = core.slots s ∨
      (slot = s.val ∧ frame = (core.slots s).frameNumber ∧
        ((core.releaseBuffer slot frame).2.slots s).bufferState = .free) := by
  unfold releaseBuffer
  split
  · exact .inl rfl
  · rename_i t ht
    split_ifs with hf _ ha
    · exact .inl rfl
    · exact .inl rfl
    · by_cases hst : s = t
      · subst hst
        refine .inr ⟨slotOf_eq_some ht, not_not.mp hf, ?_⟩
        simp [setSlot, signalDequeueCondition]
      · exact .inl (setSlot_slots_of_ne hst _)
    · exact .inl (setSlot_slots_of_ne (ne_of_bufferState ha hs).symm _)
    · exact .inl rfl

theorem setBufferCount_slots (n : Int) (s : SlotIndex) : (core.setBufferCount n).2.slots s = core.slots s ∨
      ((core.setBufferCount n).2.slots s).bufferState = .free := by
  unfold setBufferCount
  dsimp only
  split_ifs
  all_goals first | exact .inl rfl | exact .inr rfl

theorem disconnect_slots (api : NativeWindowApi) (s : SlotIndex) :
    (core.disconnect api).2.slots s = core.slots s ∨
      ((core.disconnect api).2.slots s).bufferState = .free := by
  unfold disconnect
  split_ifs
  all_goals first | exact .inl rfl | exact .inr rfl

theorem consumerDisconnect_slots (s : SlotIndex) : core.consumerDisconnect.2.slots s = core.slots s ∨
      (core.consumerDisconnect.2.slots s).bufferState = .free := by
  unfold consumerDisconnect
  split_ifs
  all_goals first | exact .inl rfl | exact .inr rfl

theorem setPreallocatedBuffer_slots (slot : Int) (buffer : Option NvGraphicBuffer)
    (s : SlotIndex) : (core.setPreallocatedBuffer slot buffer).2.slots s = core.slots s ∨
      (slot = s.val ∧ ((core.setPreallocatedBuffer slot buffer).2.slots s).bufferState = .free) := by
  unfold setPreallocatedBuffer
  split
  · exact .inl rfl
  · rename_i t ht
    by_cases hst : s = t
    · subst hst
      refine .inr ⟨slotOf_eq_some ht, ?_⟩
      cases buffer <;> simp [signalDequeueCondition]
    · left
      cases buffer <;> exact update_of_ne hst _ _

/-- **How a slot leaves the consumer**: it stays as it is, or it is free afterwards and the step was
the release of its frame or one of the operations that take slots back. -/
theorem acquired_step (h : core.Owned) (hs : (core.slots s).bufferState = .acquired) (op : Op) :
    (core.apply op).2.slots s = core.slots s ∨ (((core.apply op).2.slots s).bufferState = .free ∧
        (op = .releaseBuffer s.val (core.slots s).frameNumber ∨ op.Frees s)) := by
  have hd : (core.slots s).bufferState ≠ .dequeued := by rw [hs]; decide
  have hf : (core.slots s).bufferState ≠ .free := by rw [hs]; decide
  cases op with
  | requestBuffer slot => exact .inl (requestBuffer_slots slot hd)
  | setBufferCount n => exact (setBufferCount_slots n s).imp id fun e => ⟨e, .inr trivial⟩
  | dequeueBuffer r => exact .inl (dequeueBuffer_slots r hf)
  | detachBuffer slot => exact .inl (detachBuffer_slots slot hd)
  | queueBuffer slot input => exact .inl (queueBuffer_slots h slot input hs)
  | cancelBuffer slot fence => exact .inl (cancelBuffer_slots slot fence hd)
  | connect api app => exact .inl (congrFun (connect_slots api app) s)
  | disconnect api => exact (disconnect_slots api s).imp id fun e => ⟨e, .inr trivial⟩
  | setPreallocatedBuffer slot buffer =>
    exact (setPreallocatedBuffer_slots slot buffer s).imp id fun e => ⟨e.2, .inr e.1⟩
  | acquireBuffer expected =>
    exact .inl (by rw [apply, acquireBuffer_of_acquired expected hs])
  | releaseBuffer slot frame =>
    refine (releaseBuffer_slots slot frame hs).imp id fun e => ⟨e.2.2, .inl ?_⟩
    rw [e.1, e.2.1]
  | consumerConnect listener app => exact .inl (congrFun (consumerConnect_slots listener app) s)
  | consumerDisconnect =>
    exact (consumerDisconnect_slots s).imp id fun e => ⟨e, .inr trivial⟩

theorem dequeueBuffer_free {r : DequeueRequest} {fence : Fence} {new rel : Bool}
    (h : (core.dequeueBuffer r).1 = .dequeued s fence new rel) :
    (core.slots s).bufferState = .free := by
  have hc := dequeueBuffer_cases core r
  generalize core.dequeueBuffer r = d at hc h
  cases hc with
  | idle reply core' _ _ ho => exact absurd h (ho _ _ _ _)
  | taken t fence' new' rel' core' core1 _ _ hf _ _ _ _ _ =>
    cases h
    exact hf

theorem Owned.bijOn (h : core.Owned) : Set.BijOn (fun i : Fin core.queue.length => (core.queue.get i).slot)
      {i | stillTracking core.slots (core.queue.get i) = true}
      {s | (core.slots s).bufferState = .queued} := by
  refine ⟨fun i hi => ?_, fun i hi j hj e => ?_, fun s hs => ?_⟩
  · exact h.tracks.queued _ (get_mem _ _) hi
  · have hu := pairwise_iff_get.mp h.tracks.unique
    rcases lt_trichotomy i j with hlt | heq | hgt
    · exact absurd e (hu i j hlt hi hj)
    · exact heq
    · exact absurd e.symm (hu j i hgt hj hi)
  · obtain ⟨item, hi, ht, rfl⟩ := h.tracks.tracked s hs
    obtain ⟨i, rfl⟩ := get_of_mem hi
    exact ⟨i, ht, rfl⟩

/-- **Slot ownership.** After every run of operations from a new queue: the items still tracked and
the slots in state Queued are in bijection, the consumer has one buffer at most, `DequeueBuffer`
answers with a slot that was free, and a slot the consumer has comes to the producer only after the
release of its frame or an operation that sets it free. -/
theorem slot_ownership (ops : List Op) :
    let core := after apply {} ops
    Set.BijOn (fun i : Fin core.queue.length => (core.queue.get i).slot)
        {i | stillTracking core.slots (core.queue.get i) = true}
        {s | (core.slots s).bufferState = .queued} ∧
      core.countState numBufferSlots .acquired ≤ maxAcquiredBufferCount + 1 ∧
      (∀ r s fence new rel, (core.apply (.dequeueBuffer r)).1 = .dequeued s fence new rel →
        (core.slots s).bufferState = .free) ∧
      ∀ s, (core.slots s).bufferState = .acquired → ∀ later r fence new rel,
        ((after apply core later).apply (.dequeueBuffer r)).1 = .dequeued s fence new rel →
        ∃ before op rest, later = before ++ op :: rest ∧ (after apply core before).slots s = core.slots s ∧
          ((after apply core (before ++ [op])).slots s).bufferState = .free ∧
          (op = .releaseBuffer s.val (core.slots s).frameNumber ∨ op.Frees s) := by
  intro core
  have h : core.Owned := owned_default.after ops
  refine ⟨h.bijOn, h.acquired, fun r s fence new rel hr => dequeueBuffer_free hr, ?_⟩
  intro s hs later r fence new rel hr
  have hlost : ¬(after apply core later).slots s = core.slots s := by
    intro e
    have hfree := dequeueBuffer_free hr
    rw [e, hs] at hfree
    cases hfree
  obtain ⟨before, op, rest, rfl, hkept, hleft⟩ := exists_leaving_step
    (fun c : BufferQueueCore => c.slots s = core.slots s) rfl hlost
  refine ⟨before, op, rest, rfl, hkept, ?_⟩
  rw [after_concat]
  have hstep := acquired_step (h.after before) (hkept ▸ hs) op
  rw [hkept] at hstep
  exact hstep.resolve_left hleft

end BufferQueueCore

end Yuzu.Service
