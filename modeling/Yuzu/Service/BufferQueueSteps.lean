/-
  File:      Yuzu/Service/BufferQueueSteps.lean
  Subject:   What each operation of a buffer queue can do, said once for the invariants.

  * `Idle` -- what a pass of `WaitForFreeSlotThenRelock` may do besides finding a slot;
  * `DequeueCases`, `DequeueBufferCases` -- how `DequeueBuffer` ends, its first section and as a
    whole;
  * `Change` -- what an operation does to the slots and the queue, in a few kinds.
-/
import Mathlib.Data.List.Pairwise
import Yuzu.Service.BufferQueue

namespace Yuzu.Service

open List Function

variable {core core' core'' : BufferQueueCore} {s : SlotIndex} {bound : Nat} {async : Bool}

/-! ## 1. Slots that are free -/

theorem slotOf_eq_some {slot : Int} (h : slotOf slot = some s) : slot = s.val := by
  unfold slotOf at h
  split at h
  · rename_i hr
    rw [← Option.some.inj h]
    exact (Int.toNat_of_nonneg hr.1).symm
  · cases h

/-- The number of the frame that an answer hands to the consumer. -/
def Reply.frame : Reply → Option Nat
  | .acquired item => some item.frameNumber
  | _ => none

namespace BufferQueueCore

/-- There is a free slot below the bound. -/
def HasFree (core : BufferQueueCore) (bound : Nat) : Prop :=
  ∃ s : SlotIndex, s.val < bound ∧ (core.slots s).bufferState = .free

theorem keepOldest_cases (core : BufferQueueCore) (found : Option SlotIndex) (a : SlotIndex) :
    core.keepOldest found a = some a ∨ (core.keepOldest found a = found ∧ found ≠ none) := by
  cases found with
  | none => exact .inl rfl
  | some f =>
    unfold keepOldest
    dsimp only
    split_ifs
    · exact .inl rfl
    · exact .inr ⟨rfl, by simp⟩

theorem foldl_keepOldest_some (l : List SlotIndex) (found : Option SlotIndex)
    (h : l.foldl core.keepOldest found = some s) : s ∈ l ∨ found = some s := by
  induction l generalizing found with
  | nil => exact .inr h
  | cons a l ih =>
    rcases ih _ h with hm | he
    · exact .inl (mem_cons_of_mem _ hm)
    · rcases keepOldest_cases core found a with ha | ⟨ha, -⟩
      · rw [ha] at he
        exact .inl (Option.some.inj he ▸ mem_cons_self)
      · exact .inr (ha ▸ he)

theorem foldl_keepOldest_none (l : List SlotIndex) (found : Option SlotIndex)
    (h : l.foldl core.keepOldest found = none) : l = [] ∧ found = none := by
  induction l generalizing found with
  | nil => exact ⟨rfl, h⟩
  | cons a l ih =>
    rcases keepOldest_cases core found a with ha | ⟨ha, hn⟩
    · exact absurd ((ih _ h).2.symm.trans ha) (by simp)
    · exact absurd (ha ▸ (ih _ h).2) hn

theorem oldestFree_eq_some (h : core.oldestFree bound = some s) :
    s.val < bound ∧ (core.slots s).bufferState = .free := by
  rcases foldl_keepOldest_some _ none h with hm | he
  · simpa using hm
  · cases he

theorem oldestFree_eq_none (h : core.oldestFree bound = none) : ¬core.HasFree bound := by
  rintro ⟨s, hs, hf⟩
  have hn := (foldl_keepOldest_none _ none h).1
  have hm : s ∈ (List.finRange numBufferSlots).filter fun s =>
      s.val < bound && (core.slots s).bufferState == .free := by simp [hs, hf]
  rw [hn] at hm
  cases hm

theorem tryAgain_iff : core.tryAgain bound = true ↔ ¬(core.HasFree bound ∧ core.queue.length ≤ bound) := by
  unfold tryAgain
  cases hf : core.oldestFree bound with
  | none =>
    have := oldestFree_eq_none hf
    simp [this]
  | some s =>
    have : core.HasFree bound := ⟨s, oldestFree_eq_some hf⟩
    simp [this]

/-! ## 2. The largest slot -/

theorem foldl_preserves (p : SlotIndex → Bool) (l : List SlotIndex) (m : Nat) :
    let count := l.foldl (fun count s => if p s then s.val + 1 else count) m
    count = m ∨ ∃ s ∈ l, p s ∧ count = s.val + 1 := by
  induction l generalizing m with
  | nil => exact .inl rfl
  | cons a l ih =>
    simp only [foldl_cons]
    rcases ih (if p a then a.val + 1 else m) with h | ⟨s, hs, hp, h⟩
    · by_cases hp : p a
      · rw [if_pos hp] at h ⊢
        exact .inr ⟨a, mem_cons_self, hp, h⟩
      · rw [if_neg hp] at h ⊢
        exact .inl h
    · exact .inr ⟨s, mem_cons_of_mem _ hs, hp, h⟩

theorem lt_foldl_preserves (p : SlotIndex → Bool) (l : List SlotIndex) (m : Nat)
    (hl : l.Pairwise (· < ·)) (hm : ∀ s ∈ l, m ≤ s.val) :
    let count := l.foldl (fun count s => if p s then s.val + 1 else count) m
    m ≤ count ∧ ∀ s ∈ l, p s → s.val < count := by
  induction l generalizing m with
  | nil => exact ⟨le_rfl, fun s hs => (nomatch hs)⟩
  | cons a l ih =>
    simp only [foldl_cons]
    obtain ⟨ha, hl⟩ := pairwise_cons.mp hl
    have hle : m ≤ if p a then a.val + 1 else m := by
      have := hm a mem_cons_self
      split_ifs <;> omega
    obtain ⟨h1, h2⟩ := ih (if p a then a.val + 1 else m) hl fun s hs => by
      have h1 : a.val < s.val := ha s hs
      have h2 := hm s (mem_cons_of_mem _ hs)
      split_ifs <;> omega
    refine ⟨hle.trans h1, fun s hs hp => ?_⟩
    rcases mem_cons.mp hs with rfl | hs
    · rw [if_pos hp] at h1 ⊢
      exact h1
    · exact h2 s hs hp

theorem getMaxBufferCountLocked_eq : core.getMaxBufferCountLocked async =
    if core.overrideMaxBufferCount ≠ 0 then core.overrideMaxBufferCount
    else ((List.finRange numBufferSlots).filter fun s => 2 ≤ s.val).foldl
      (fun count s => if core.preserves s then s.val + 1 else count) 2 := rfl

theorem getMaxBufferCountLocked_override (h : core.overrideMaxBufferCount ≠ 0) :
    core.getMaxBufferCountLocked async = core.overrideMaxBufferCount := by
  rw [getMaxBufferCountLocked_eq, if_pos h]

theorem getMaxBufferCountLocked_default (async : Bool) (h : core.overrideMaxBufferCount = 0) :
    core.getMaxBufferCountLocked async = 2 ∨ ∃ s : SlotIndex, 2 ≤ s.val ∧ core.preserves s ∧
        core.getMaxBufferCountLocked async = s.val + 1 := by
  rw [getMaxBufferCountLocked_eq, if_neg (not_not.mpr h)]
  rcases foldl_preserves core.preserves _ 2 with h | ⟨s, hs, hp, h⟩
  · exact .inl h
  · exact .inr ⟨s, by simpa using hs, hp, h⟩

theorem lt_getMaxBufferCountLocked (async : Bool) (h : core.overrideMaxBufferCount = 0) :
    2 ≤ core.getMaxBufferCountLocked async ∧
      ∀ s, core.preserves s → s.val < core.getMaxBufferCountLocked async := by
  rw [getMaxBufferCountLocked_eq, if_neg (not_not.mpr h)]
  obtain ⟨h1, h₂⟩ := lt_foldl_preserves core.preserves
    ((List.finRange numBufferSlots).filter fun s => 2 ≤ s.val) 2
    ((pairwise_lt_finRange _).sublist filter_sublist) (by simp)
  refine ⟨h1, fun s hs => ?_⟩
  by_cases h2 : 2 ≤ s.val
  · exact h₂ s (by simpa using h2) hs
  · exact (Nat.lt_of_not_le h2).trans_le h1

theorem getMaxBufferCountLocked_congr (ho : core'.overrideMaxBufferCount = core.overrideMaxBufferCount)
    (hs : ∀ s, (core'.slots s).bufferState = (core.slots s).bufferState) :
    core'.getMaxBufferCountLocked async = core.getMaxBufferCountLocked async := by
  have hp : core'.preserves = core.preserves := by
    funext s
    rw [preserves, preserves, hs]
  rw [getMaxBufferCountLocked_eq, getMaxBufferCountLocked_eq, ho, hp]

/-! ## 3. Looking for a slot -/

/-- A pass of `WaitForFreeSlotThenRelock` touches the buffers of free slots and the signal. -/
structure Idle (core core' : BufferQueueCore) : Prop where
  rest : core' = { core with slots := core'.slots, dequeuePossible := core'.dequeuePossible }
  slots : ∀ s, core'.slots s = core.slots s ∨
    ((core.slots s).bufferState = .free ∧ core'.slots s = (core.slots s).free)

namespace Idle

theorem refl (core : BufferQueueCore) : Idle core core := ⟨rfl, fun _ => .inl rfl⟩

theorem bufferState (h : Idle core core') (s : SlotIndex) :
    (core'.slots s).bufferState = (core.slots s).bufferState := by
  rcases h.slots s with e | ⟨hf, e⟩
  · rw [e]
  · rw [e, hf]
    rfl

theorem trans (h : Idle core core') (h' : Idle core' core'') : Idle core core'' := by
  refine ⟨?_, fun s => ?_⟩
  · rw [h'.rest, h.rest]
  · rcases h.slots s with e | ⟨hf, e⟩
    · rw [← e]
      exact h'.slots s
    · refine .inr ⟨hf, ?_⟩
      rcases h'.slots s with e' | ⟨-, e'⟩
      · rw [e', e]
      · rw [e', e]
        simp [BufferSlot.free]

theorem freeBeyond (core : BufferQueueCore) (bound : Nat) : Idle core (core.freeBeyond bound) := by
  refine ⟨rfl, fun s => ?_⟩
  by_cases hi : core.idleBeyond bound s
  · refine .inr ⟨?_, if_pos hi⟩
    simp only [idleBeyond, Bool.and_eq_true, beq_iff_eq] at hi
    exact hi.1.2
  · exact .inl (if_neg hi)

theorem consumed (core : BufferQueueCore) (b : Bool) :
    Idle core { core with dequeuePossible := b } := ⟨rfl, fun _ => .inl rfl⟩

theorem queue (h : Idle core core') : core'.queue = core.queue := by
  rw [h.rest]

theorem overrideMaxBufferCount (h : Idle core core') :
    core'.overrideMaxBufferCount = core.overrideMaxBufferCount := by
  rw [h.rest]

theorem tryAgain (h : Idle core core') : core'.tryAgain bound = core.tryAgain bound := by
  rw [Bool.eq_iff_iff, tryAgain_iff, tryAgain_iff, HasFree, HasFree, h.queue]
  simp only [h.bufferState]

theorem getMaxBufferCountLocked (h : Idle core core') :
    core'.getMaxBufferCountLocked async = core.getMaxBufferCountLocked async :=
  getMaxBufferCountLocked_congr h.overrideMaxBufferCount h.bufferState

end Idle

theorem findSlot_found (h : core.findSlot async bound = .found s) :
    s.val < bound ∧ (core.slots s).bufferState = .free := by
  unfold findSlot at h
  dsimp only at h
  split_ifs at h
  split at h
  · rename_i f hf
    cases h
    exact oldestFree_eq_some hf
  · cases h

theorem findSlot_wait (h : core.findSlot async bound = .wait) : core.tryAgain bound = true := by
  unfold findSlot at h
  dsimp only at h
  split_ifs at h with _ _ ht
  · exact ht
  · split at h
    · cases h
    · rename_i hf
      simp [tryAgain, hf]

/-- **A pass of the loop**: besides idle work it finds a slot that is free and below the maximum,
or it waits where there is none or the queue is too long. -/
structure Pass (core : BufferQueueCore) (async : Bool) (r : Attempt × Bool × BufferQueueCore) :
    Prop where
  idle : Idle core r.2.2
  alive : ∀ s, r.1 = .found s → core.isAbandoned = false
  signal : r.2.2.dequeuePossible = core.dequeuePossible ∨
    core.tryAgain (core.getMaxBufferCountLocked async) = true
  found : ∀ s, r.1 = .found s →
    s.val < core.getMaxBufferCountLocked async ∧ (core.slots s).bufferState = .free
  wait : r.1 = .wait → r.2.2.tryAgain (core.getMaxBufferCountLocked async) = true

theorem tryFreeSlot_pass (core : BufferQueueCore) (async rel : Bool) :
    Pass core async (core.tryFreeSlot async rel) := by
  unfold tryFreeSlot
  dsimp only
  split_ifs with h1 h2
  · exact ⟨.refl _, fun s h => (nomatch h), .inl rfl, fun s h => (nomatch h), fun h => (nomatch h)⟩
  · exact ⟨.refl _, fun s h => (nomatch h), .inl rfl, fun s h => (nomatch h), fun h => (nomatch h)⟩
  · have hi := Idle.freeBeyond core (core.getMaxBufferCountLocked async)
    refine ⟨hi, fun _ _ => by simpa using h1, .inl rfl, fun s h => ?_, fun h => findSlot_wait h⟩
    obtain ⟨hb, hf⟩ := findSlot_found h
    exact ⟨hb, hi.bufferState s ▸ hf⟩

theorem Pass.of_idle (hi : Idle core core') (ht : core.tryAgain (core.getMaxBufferCountLocked async) = true)
    {r : Attempt × Bool × BufferQueueCore} (h : Pass core' async r) : Pass core async r := by
  refine ⟨hi.trans h.idle, fun s hs => ?_, .inr ht, fun s hs => ?_, fun hw => ?_⟩
  · have ha := h.alive s hs
    rwa [hi.rest] at ha
  · rw [← hi.getMaxBufferCountLocked, ← hi.bufferState s]
    exact h.found s hs
  · rw [← hi.getMaxBufferCountLocked]
    exact h.wait hw

theorem waitForFreeSlotThenRelock_pass (core : BufferQueueCore) (async : Bool) :
    Pass core async (core.waitForFreeSlotThenRelock async) := by
  have h := tryFreeSlot_pass core async false
  unfold waitForFreeSlotThenRelock
  split
  · rename_i rel core' e
    rw [e] at h
    split_ifs with hd
    · refine (tryFreeSlot_pass _ _ _).of_idle (h.idle.trans (.consumed core' false)) ?_
      rw [← h.idle.tryAgain]
      exact h.wait rfl
    · exact h
  · exact h

/-! ## 4. What an operation changes -/

/-- How a slot moves in an operation that leaves the queue alone. A buffer it gets is new, its
identity given out in the operation. -/
inductive SlotMove (core core' : BufferQueueCore) (s : SlotIndex) : Prop where
  | kept (state : (core'.slots s).bufferState = (core.slots s).bufferState)
      (buffer : (core'.slots s).graphicBuffer = (core.slots s).graphicBuffer)
  | freed (state : (core'.slots s).bufferState = .free)
      (notQueued : (core.slots s).bufferState ≠ .queued)
      (buffer : (core'.slots s).graphicBuffer = (core.slots s).graphicBuffer)
  | cleared (state : (core'.slots s).bufferState = .free)
      (buffer : (core'.slots s).graphicBuffer = none)
  | renewed (b : GraphicBuffer) (state : (core'.slots s).bufferState = .free)
      (buffer : (core'.slots s).graphicBuffer = some b) (fresh : core.nextBuffer ≤ b.id)
      (given : b.id < core'.nextBuffer)
  | taken (b : GraphicBuffer) (wasFree : (core.slots s).bufferState = .free)
      (below : s.val < core.getMaxBufferCountLocked false)
      (state : (core'.slots s).bufferState = .dequeued)
      (buffer : (core'.slots s).graphicBuffer = some b)
      (known : (core.slots s).graphicBuffer = some b ∨ (core.nextBuffer ≤ b.id ∧ b.id < core'.nextBuffer))

theorem SlotMove.of_eq (h : core'.slots s = core.slots s) : SlotMove core core' s :=
  .kept (by rw [h]) (by rw [h])

theorem SlotMove.of_free (h : core'.slots s = (core.slots s).free) : SlotMove core core' s :=
  .cleared (by rw [h]; rfl) (by rw [h]; rfl)

/-- An operation either moves slots and leaves the queue, or empties slots and queue, or puts an
item in, or takes items out. -/
inductive Change (core : BufferQueueCore) : Op → Reply × BufferQueueCore → Prop where
  | moved {op : Op} {p : Reply × BufferQueueCore} (reply : p.1.frame = none)
      (queue : p.2.queue = core.queue) (frames : p.2.frameCounter = core.frameCounter)
      (next : core.nextBuffer ≤ p.2.nextBuffer)
      (slots : ∀ s, SlotMove core p.2 s) :
      Change core op p
  | emptied {op : Op} {p : Reply × BufferQueueCore} (reply : p.1.frame = none)
      (queue : p.2.queue = []) (frames : p.2.frameCounter = core.frameCounter)
      (slots : ∀ s, (p.2.slots s).bufferState = .free ∧ (p.2.slots s).graphicBuffer = none) :
      Change core op p
  | pushed {p : Reply × BufferQueueCore} (slot : Int) (s : SlotIndex) (b : GraphicBuffer)
      (input : QueueBufferInput) (reply : ∃ output, p.1 = .output output)
      (state : (core.slots s).bufferState = .dequeued)
      (buffer : (core.slots s).graphicBuffer = some b)
      (eq : p.2 = signalDequeueCondition
        { (core.countFrame s input.fence).pushItem ((core.countFrame s input.fence).itemOf s input)
          with bufferHasBeenQueued := true }) : Change core (.queueBuffer slot input) p
  | later (slots : Slots) (front : BufferItem) (rest : List BufferItem) (expectedPresent : Int)
      (dropped : (slots, front :: rest) = dropLoop expectedPresent core.slots core.queue)
      (deferred : deferred expectedPresent front = true) :
      Change core (.acquireBuffer expectedPresent)
        (.status .presentLater, { core with slots := slots, queue := front :: rest })
  | shown (slots : Slots) (front : BufferItem) (rest : List BufferItem) (expectedPresent : Int)
      (none : core.countState numBufferSlots .acquired = 0)
      (dropped : (slots, front :: rest) = (core.slots, core.queue) ∨
        (slots, front :: rest) = dropLoop expectedPresent core.slots core.queue) :
      Change core (.acquireBuffer expectedPresent)
        (takeFront { core with slots := slots, queue := front :: rest } front rest)

namespace Change

variable {op : Op} {r : Reply}

theorem refl (hr : r.frame = none) : Change core op (r, core) :=
  .moved hr rfl rfl le_rfl fun _ => .of_eq rfl

theorem setSlot {new : BufferSlot} {flag : Bool} (hr : r.frame = none)
    (h : SlotMove core { core.setSlot s new with dequeuePossible := flag } s) :
    Change core op (r, { core.setSlot s new with dequeuePossible := flag }) := by
  refine .moved hr rfl rfl le_rfl fun t => ?_
  by_cases ht : t = s
  · exact ht ▸ h
  · exact .of_eq (update_of_ne ht _ _)

theorem of_idle (hr : r.frame = none) (h : Idle core core') : Change core op (r, core') := by
  refine .moved hr h.queue ?_ ?_ fun s => ?_
  · rw [h.rest]
  · rw [h.rest]
  · rcases h.slots s with e | ⟨-, e⟩
    · exact .of_eq e
    · exact .of_free e

end Change

theorem setSlot_slots_self (new : BufferSlot) : (core.setSlot s new).slots s = new :=
  update_self _ _ _

theorem setSlot_slots_of_ne {t : SlotIndex} (h : t ≠ s) (new : BufferSlot) :
    (core.setSlot s new).slots t = core.slots t := update_of_ne h _ _

theorem requestBuffer_change (slot : Int) : Change core (.requestBuffer slot) (core.requestBuffer slot) := by
  unfold requestBuffer
  split_ifs
  · exact .refl rfl
  · split
    · exact .refl rfl
    · split_ifs
      · exact .refl rfl
      · exact .setSlot rfl (.kept (by rw [setSlot_slots_self]) (by rw [setSlot_slots_self]))

theorem setBufferCount_change (n : Int) : Change core (.setBufferCount n) (core.setBufferCount n) := by
  unfold setBufferCount
  dsimp only
  split_ifs
  · exact .refl rfl
  · exact .refl rfl
  · exact .refl rfl
  · exact .moved rfl rfl rfl le_rfl fun _ => .of_eq rfl
  · exact .refl rfl
  · exact .moved rfl rfl rfl le_rfl fun _ => .of_free rfl
  · exact .moved rfl rfl rfl le_rfl fun _ => .of_eq rfl

theorem detachBuffer_change (slot : Int) : Change core (.detachBuffer slot) (core.detachBuffer slot) := by
  unfold detachBuffer
  split_ifs
  · exact .refl rfl
  · split
    · exact .refl rfl
    · split_ifs
      · exact .refl rfl
      · exact .refl rfl
      · exact .setSlot rfl (.of_free (setSlot_slots_self _))

theorem cancelBuffer_change (slot : Int) (fence : Fence) :
    Change core (.cancelBuffer slot fence) (core.cancelBuffer slot fence) := by
  unfold cancelBuffer
  split_ifs
  · exact .refl rfl
  · split
    · exact .refl rfl
    · split_ifs with hd
      · exact .refl rfl
      · refine .setSlot rfl (.freed (by rw [setSlot_slots_self]) ?_ (by rw [setSlot_slots_self]))
        rw [not_not.mp hd]
        decide

theorem connect_change (api : NativeWindowApi) (app : Bool) :
    Change core (.connect api app) (core.connect api app) := by
  unfold connect
  dsimp only
  split_ifs
  · exact .refl rfl
  · exact .refl rfl
  · exact .refl rfl
  · exact .moved rfl rfl rfl le_rfl fun _ => .of_eq rfl
  · exact .moved rfl rfl rfl le_rfl fun _ => .of_eq rfl

theorem disconnect_change (api : NativeWindowApi) : Change core (.disconnect api) (core.disconnect api) := by
  unfold disconnect
  split_ifs
  · exact .refl rfl
  · exact .refl rfl
  · exact .refl rfl
  · exact .emptied rfl rfl rfl fun _ => ⟨rfl, rfl⟩

theorem setPreallocatedBuffer_change (slot : Int) (buffer : Option NvGraphicBuffer) :
    Change core (.setPreallocatedBuffer slot buffer) (core.setPreallocatedBuffer slot buffer) := by
  unfold setPreallocatedBuffer
  split
  · exact .refl rfl
  · rename_i s _
    have hm : ∀ (core' : BufferQueueCore) (new : BufferSlot) (b : GraphicBuffer) (t : SlotIndex),
        core'.slots = Function.update core.slots s new → core'.nextBuffer = core.nextBuffer + 1 →
        new.bufferState = .free → new.graphicBuffer = some b → b.id = core.nextBuffer →
        SlotMove core core' t := by
      intro core' new b t hs hn hf hb hid
      by_cases ht : t = s
      · subst ht
        have e : core'.slots t = new := by rw [hs, update_self]
        exact .renewed b (e ▸ hf) (e ▸ hb) hid.ge (by omega)
      · exact .of_eq (by rw [hs, update_of_ne ht])
    cases buffer with
    | none => exact .moved rfl rfl rfl (Nat.le_succ _) fun t => hm _ _ _ t rfl rfl rfl rfl rfl
    | some b => exact .moved rfl rfl rfl (Nat.le_succ _) fun t => hm _ _ _ t rfl rfl rfl rfl rfl

theorem releaseBuffer_change (slot : Int) (frame : Nat) :
    Change core (.releaseBuffer slot frame) (core.releaseBuffer slot frame) := by
  unfold releaseBuffer
  split
  · exact .refl rfl
  · split_ifs with _ _ ha
    · exact .refl rfl
    · exact .refl rfl
    · refine .setSlot rfl (.freed (by rw [setSlot_slots_self]) ?_ (by rw [setSlot_slots_self]))
      rw [ha]
      decide
    · exact .setSlot rfl (.kept (by rw [setSlot_slots_self]) (by rw [setSlot_slots_self]))
    · exact .refl rfl

theorem consumerConnect_change (listener app : Bool) :
    Change core (.consumerConnect listener app) (core.consumerConnect listener app) := by
  unfold consumerConnect
  split_ifs
  · exact .refl rfl
  · exact .refl rfl
  · exact .moved rfl rfl rfl le_rfl fun _ => .of_eq rfl

theorem consumerDisconnect_change : Change core .consumerDisconnect core.consumerDisconnect := by
  unfold consumerDisconnect
  split_ifs
  · exact .refl rfl
  · exact .emptied rfl rfl rfl fun _ => ⟨rfl, rfl⟩

/-- **The first section of `DequeueBuffer`**: it ends after idle work, or it takes a slot that was
free and below the maximum. -/
inductive DequeueCases (core : BufferQueueCore) (r : DequeueRequest) :
    DequeueSection × BufferQueueCore → Prop where
  | done (status : Status) (core' : BufferQueueCore) (idle : Idle core core')
      (signal : core'.dequeuePossible = core.dequeuePossible ∨
        core.tryAgain (core.getMaxBufferCountLocked r.async) = true) :
      DequeueCases core r (.done status, core')
  | waiting (core' : BufferQueueCore) (idle : Idle core core')
      (again : core'.tryAgain (core'.getMaxBufferCountLocked r.async) = true) :
      DequeueCases core r (.waiting, core')
  | taken (s : SlotIndex) (rel : Bool) (core' : BufferQueueCore) (idle : Idle core core')
      (alive : core.isAbandoned = false) (below : s.val < core.getMaxBufferCountLocked r.async)
      (free : (core.slots s).bufferState = .free)
      (signal : core'.dequeuePossible = core.dequeuePossible ∨
        core.tryAgain (core.getMaxBufferCountLocked r.async) = true) :
      DequeueCases core r
        (.taken s (core'.takeSlot s (core'.wanted r)).1 (core'.slots s).attachedByConsumer rel
          (core'.takeSlot s (core'.wanted r)).2.1, (core'.takeSlot s (core'.wanted r)).2.2)

theorem dequeueSlot_cases (core : BufferQueueCore) (r : DequeueRequest) :
    DequeueCases core r (core.dequeueSlot r) := by
  have h := waitForFreeSlotThenRelock_pass core r.async
  unfold dequeueSlot
  split
  · rename_i status rel core' e
    rw [e] at h
    exact .done _ _ h.idle h.signal
  · rename_i rel core' e
    rw [e] at h
    refine .waiting _ h.idle ?_
    rw [h.idle.getMaxBufferCountLocked]
    exact h.wait rfl
  · rename_i s rel core' e
    rw [e] at h
    exact .taken s rel core' h.idle (h.alive s rfl) (h.found s rfl).1 (h.found s rfl).2 h.signal

theorem takeSlot_eq (core : BufferQueueCore) (s : SlotIndex) (w : NvGraphicBuffer) :
    ∃ new : BufferSlot, (core.takeSlot s w).2.2 = core.setSlot s new ∧ new.bufferState = .dequeued ∧
      ((∃ b, (core.takeSlot s w).2.1 = none ∧ new.graphicBuffer = some b ∧
          (core.slots s).graphicBuffer = some b) ∨
        ((core.takeSlot s w).2.1 = some w ∧ new.graphicBuffer = none)) := by
  unfold takeSlot
  dsimp only
  split_ifs with hf
  · refine ⟨_, rfl, rfl, .inl ?_⟩
    cases hb : (core.slots s).graphicBuffer with
    | none => simp [hb, fits] at hf
    | some b => exact ⟨b, rfl, rfl, rfl⟩
  · exact ⟨_, rfl, rfl, .inr ⟨rfl, rfl⟩⟩

theorem storeAllocation_alive (h : core.isAbandoned = false) (w : NvGraphicBuffer) :
    core.storeAllocation s w = (none, { core with
      slots := Function.update core.slots s { core.slots s with
        frameNumber := uint32Max
        graphicBuffer := some { w with id := core.nextBuffer } }
      nextBuffer := core.nextBuffer + 1 }) := by
  unfold storeAllocation
  rw [if_neg (Bool.eq_false_iff.mp h)]

/-- **`DequeueBuffer`** gives the producer a slot that was free and below the maximum, with a
buffer, or does idle work only. -/
inductive DequeueBufferCases (core : BufferQueueCore) (async : Bool) :
    Reply × BufferQueueCore → Prop where
  | idle (reply : Reply) (core' : BufferQueueCore) (idle : Idle core core')
      (frame : reply.frame = none) (other : ∀ s fence new rel, reply ≠ .dequeued s fence new rel) :
      DequeueBufferCases core async (reply, core')
  | taken (s : SlotIndex) (fence : Fence) (new rel : Bool) (core' core₁ : BufferQueueCore)
      (idle : Idle core core₁) (below : s.val < core.getMaxBufferCountLocked async)
      (free : (core.slots s).bufferState = .free)
      (rest : core' = { core₁ with slots := core'.slots, nextBuffer := core'.nextBuffer })
      (next : core₁.nextBuffer ≤ core'.nextBuffer)
      (others : ∀ t, t ≠ s → core'.slots t = core₁.slots t)
      (move : SlotMove core core' s) (state : (core'.slots s).bufferState = .dequeued) :
      DequeueBufferCases core async (.dequeued s fence new rel, core')

theorem dequeueBuffer_cases (core : BufferQueueCore) (r : DequeueRequest) :
    DequeueBufferCases core r.async (core.dequeueBuffer r) := by
  unfold dequeueBuffer
  split_ifs
  · exact .idle _ _ (.refl _) rfl (by simp)
  have h := dequeueSlot_cases core (core.resolve r)
  generalize core.dequeueSlot (core.resolve r) = d at h
  cases h with
  | done status core' hi _ => exact .idle _ _ hi rfl (by simp)
  | waiting core' hi _ => exact .idle _ _ hi rfl (by simp)
  | taken s rel core1 hi ha hb hf _ =>
    obtain ⟨new, e, hs, hnew⟩ := takeSlot_eq core1 s (core1.wanted (core.resolve r))
    have hn : core1.nextBuffer = core.nextBuffer := by rw [hi.rest]
    rcases hnew with ⟨b, hal, hnb, hob⟩ | ⟨hal, hnb⟩
    · rw [hal, e]
      refine .taken s _ _ _ _ core1 hi hb hf rfl le_rfl (fun t ht => ?_) ?_ ?_
      · simp [setSlot, update_of_ne ht]
      · refine .taken b hf hb (by simp [setSlot, hs]) (by simp [setSlot, hnb]) (.inl ?_)
        rcases hi.slots s with e' | ⟨-, e'⟩
        · rw [← e', hob]
        · rw [e'] at hob
          cases hob
      · simp [setSlot, hs]
    · rw [hal, e]
      have ha' : (core1.setSlot s new).isAbandoned = false := by
        rw [setSlot, hi.rest]
        exact ha
      dsimp only
      rw [storeAllocation_alive ha']
      refine .taken s _ _ _ _ core1 hi hb hf rfl (Nat.le_succ _) (fun t ht => ?_) ?_ ?_
      · simp [setSlot, update_of_ne ht]
      · refine .taken _ hf hb (by simp [setSlot, hs]) (by simp [setSlot]; rfl) (.inr ⟨?_, ?_⟩)
        · exact hn ▸ le_rfl
        · exact Nat.lt_succ_self _
      · simp [setSlot, hs]

theorem dequeueBuffer_change (r : DequeueRequest) : Change core (.dequeueBuffer r) (core.dequeueBuffer r) := by
  have h := dequeueBuffer_cases core r
  generalize core.dequeueBuffer r = d at h
  cases h with
  | idle reply core' hi hr _ => exact .of_idle hr hi
  | taken s fence new rel core' core1 hi _ _ hr hnx ho hm _ =>
    have hn : core1.nextBuffer = core.nextBuffer := by rw [hi.rest]
    have hrest : core'.queue = core1.queue ∧ core'.frameCounter = core1.frameCounter := by
      rw [hr]
      exact ⟨rfl, rfl⟩
    refine .moved rfl (hrest.1.trans hi.queue) (hrest.2.trans ?_) (hn ▸ hnx) fun t => ?_
    · rw [hi.rest]
    · by_cases ht : t = s
      · exact ht ▸ hm
      · rcases hi.slots t with e | ⟨-, e⟩
        · exact .of_eq ((ho t ht).trans e)
        · exact .of_free ((ho t ht).trans e)

theorem queueBuffer_change (slot : Int) (input : QueueBufferInput) :
    Change core (.queueBuffer slot input) (core.queueBuffer slot input) := by
  unfold queueBuffer
  dsimp only
  split_ifs
  · exact .refl rfl
  · exact .refl rfl
  · exact .refl rfl
  · split
    · exact .refl rfl
    · rename_i s _
      split_ifs with _ hd
      · exact .refl rfl
      · exact .refl rfl
      · exact .refl rfl
      · split
        · exact .refl rfl
        · rename_i b hb
          split_ifs
          · exact .refl rfl
          · exact .pushed slot s b input ⟨_, rfl⟩ (not_not.mp hd) hb rfl

theorem dropLoop_ne_nil (expectedPresent : Int) (slots : Slots) {queue : List BufferItem}
    (h : queue ≠ []) : (dropLoop expectedPresent slots queue).2 ≠ [] := by
  fun_induction dropLoop expectedPresent slots queue with
  | case1 slots front next rest _ ih => exact ih (by simp)
  | case2 => exact h
  | case3 => exact h

theorem acquireBuffer_change (expectedPresent : Int) :
    Change core (.acquireBuffer expectedPresent) (core.acquireBuffer expectedPresent) := by
  unfold acquireBuffer
  split_ifs with ha he hx
  · exact .refl rfl
  · exact .refl rfl
  · have h0 : core.countState numBufferSlots .acquired = 0 := by
      rw [maxAcquiredBufferCount] at ha
      omega
    obtain ⟨⟨slots, queue⟩, e⟩ : ∃ d, d = dropLoop expectedPresent core.slots core.queue := ⟨_, rfl⟩
    have hne : queue ≠ [] := by
      have hd := dropLoop_ne_nil expectedPresent core.slots (by simpa using he : core.queue ≠ [])
      rwa [← e] at hd
    rw [← e]
    obtain ⟨front, rest, rfl⟩ := exists_cons_of_ne_nil hne
    dsimp only
    split_ifs
    · rename_i hd
      exact .later slots front rest expectedPresent e hd.2
    · exact .shown slots front rest expectedPresent h0 (.inr e)
  · have h0 : core.countState numBufferSlots .acquired = 0 := by
      rw [maxAcquiredBufferCount] at ha
      omega
    obtain ⟨front, rest, e⟩ := exists_cons_of_ne_nil (l := core.queue) (by simpa using he)
    rw [e]
    dsimp only
    rw [if_neg (fun h => hx h.1)]
    exact .shown core.slots front rest expectedPresent h0 (.inl (by rw [e]))

/-- **Every operation is a change of one of the four kinds.** -/
theorem apply_change (core : BufferQueueCore) (op : Op) : Change core op (core.apply op) := by
  cases op with
  | requestBuffer slot => exact requestBuffer_change slot
  | setBufferCount n => exact setBufferCount_change n
  | dequeueBuffer r => exact dequeueBuffer_change r
  | detachBuffer slot => exact detachBuffer_change slot
  | queueBuffer slot input => exact queueBuffer_change slot input
  | cancelBuffer slot fence => exact cancelBuffer_change slot fence
  | connect api app => exact connect_change api app
  | disconnect api => exact disconnect_change api
  | setPreallocatedBuffer slot buffer => exact setPreallocatedBuffer_change slot buffer
  | acquireBuffer expected => exact acquireBuffer_change expected
  | releaseBuffer slot frame => exact releaseBuffer_change slot frame
  | consumerConnect listener app => exact consumerConnect_change listener app
  | consumerDisconnect => exact consumerDisconnect_change

end BufferQueueCore

end Yuzu.Service
