/-
  File:      Yuzu/Service/BufferQueueWakeup.lean
  Subject:   A producer thread that waits in `DequeueBuffer`, among the operations of other threads.

  A step is a section under the core's lock. `DequeueBuffer` has two of them; the first may end in a
  wait, and goes on when the thread wakes. The signal is a flag that the woken thread takes back.
  Whenever the flag is down while the thread waits, it would find no slot or too long a queue
  (`Awaited`): whatever makes room raises the flag.
-/
import Yuzu.Service.BufferQueueSteps

namespace Yuzu.Service

namespace BufferQueueCore

variable {core core' : BufferQueueCore} {s : SlotIndex}

/-! ## 1. Room for a slot -/

/-- **There is room**: a slot below the maximum is free, and the queue is not longer than that. -/
def Ready (core : BufferQueueCore) : Prop :=
  core.HasFree (core.getMaxBufferCountLocked false) ∧ core.queue.length ≤ core.getMaxBufferCountLocked false

theorem tryAgain_eq_true (async : Bool) :
    core.tryAgain (core.getMaxBufferCountLocked async) = true ↔ ¬core.Ready := tryAgain_iff

/-- Room depends on the states of the slots, the queue and the override. -/
structure SameRoom (core core' : BufferQueueCore) : Prop where
  states : ∀ s, (core'.slots s).bufferState = (core.slots s).bufferState
  queue : core'.queue = core.queue
  override : core'.overrideMaxBufferCount = core.overrideMaxBufferCount

theorem SameRoom.ready_iff (h : SameRoom core core') : core'.Ready ↔ core.Ready := by
  unfold Ready HasFree
  rw [getMaxBufferCountLocked_congr h.override h.states, h.queue]
  simp only [h.states]

theorem Idle.sameRoom (h : Idle core core') : SameRoom core core' :=
  ⟨h.bufferState, h.queue, h.overrideMaxBufferCount⟩

theorem SameRoom.setSlot {new : BufferSlot}
    (h : new.bufferState = (core.slots s).bufferState) : SameRoom core (core.setSlot s new) := by
  refine ⟨fun t => ?_, rfl, rfl⟩
  by_cases ht : t = s
  · rw [ht, setSlot_slots_self, h]
  · rw [setSlot_slots_of_ne ht]

/-- A slot that is taken below the maximum makes no room. -/
theorem Ready.of_taken {new : BufferSlot} (hb : s.val < core.getMaxBufferCountLocked false)
    (hd : new.bufferState = .dequeued) (h : (core.setSlot s new).Ready) : core.Ready := by
  have hmax : (core.setSlot s new).getMaxBufferCountLocked false ≤ core.getMaxBufferCountLocked false := by
    by_cases ho : core.overrideMaxBufferCount = 0
    · obtain ⟨h2, hlt⟩ := lt_getMaxBufferCountLocked false ho
      rcases @BufferQueueCore.getMaxBufferCountLocked_default (core.setSlot s new) false ho with
        e | ⟨t, -, hp, e⟩
      · omega
      · rw [e]
        by_cases ht : t = s
        · subst ht
          exact hb
        · rw [preserves, setSlot_slots_of_ne ht] at hp
          exact hlt t hp
    · rw [getMaxBufferCountLocked_override ho,
        @BufferQueueCore.getMaxBufferCountLocked_override (core.setSlot s new) _ ho]
      exact le_rfl
  obtain ⟨⟨t, ht, hf⟩, hq⟩ := h
  refine ⟨⟨t, ht.trans_le hmax, ?_⟩, hq.trans hmax⟩
  by_cases hts : t = s
  · rw [hts, setSlot_slots_self, hd] at hf
    cases hf
  · rwa [setSlot_slots_of_ne hts] at hf

/-- **What an operation does to the signal**: it is given, or room is as it was. -/
def Signals (core core' : BufferQueueCore) : Prop :=
  core'.dequeuePossible = true ∨ (core'.dequeuePossible = core.dequeuePossible ∧ SameRoom core core')

theorem Signals.refl (core : BufferQueueCore) : Signals core core :=
  .inr ⟨rfl, fun _ => rfl, rfl, rfl⟩

theorem requestBuffer_signals (slot : Int) : Signals core (core.requestBuffer slot).2 := by
  unfold requestBuffer
  split_ifs
  · exact .refl _
  · split
    · exact .refl _
    · split_ifs
      · exact .refl _
      · exact .inr ⟨rfl, .setSlot rfl⟩

theorem setBufferCount_signals (n : Int) : Signals core (core.setBufferCount n).2 := by
  unfold setBufferCount
  dsimp only
  split_ifs
  all_goals first | exact .refl _ | exact .inl rfl

theorem detachBuffer_signals (slot : Int) : Signals core (core.detachBuffer slot).2 := by
  unfold detachBuffer
  split_ifs
  · exact .refl _
  · split
    · exact .refl _
    · split_ifs
      · exact .refl _
      · exact .refl _
      · exact .inl rfl

theorem queueBuffer_signals (slot : Int) (input : QueueBufferInput) :
    Signals core (core.queueBuffer slot input).2 := by
  unfold queueBuffer
  dsimp only
  split_ifs
  · exact .refl _
  · exact .refl _
  · exact .refl _
  · split
    · exact .refl _
    · split_ifs
      · exact .refl _
      · exact .refl _
      · exact .refl _
      · split
        · exact .refl _
        · split_ifs
          · exact .refl _
          · exact .inl rfl

theorem cancelBuffer_signals (slot : Int) (fence : Fence) :
    Signals core (core.cancelBuffer slot fence).2 := by
  unfold cancelBuffer
  split_ifs
  · exact .refl _
  · split
    · exact .refl _
    · split_ifs
      · exact .refl _
      · exact .inl rfl

theorem connect_signals (api : NativeWindowApi) (app : Bool) : Signals core (core.connect api app).2 := by
  unfold connect
  dsimp only
  split_ifs
  all_goals exact .inr ⟨rfl, fun _ => rfl, rfl, rfl⟩

theorem disconnect_signals (api : NativeWindowApi) : Signals core (core.disconnect api).2 := by
  unfold disconnect
  split_ifs
  all_goals first | exact .refl _ | exact .inl rfl

theorem setPreallocatedBuffer_signals (slot : Int) (buffer : Option NvGraphicBuffer) :
    Signals core (core.setPreallocatedBuffer slot buffer).2 := by
  unfold setPreallocatedBuffer
  split
  · exact .refl _
  · cases buffer <;> exact .inl rfl

/-- **`AcquireBuffer` defers before it drops**: a front that came up because the one before it was
dropped is due, so a deferred front is the one the call found. -/
theorem dropLoop_of_deferred {expectedPresent : Int} {slots slots' : Slots}
    {queue rest : List BufferItem} {front : BufferItem}
    (h : (slots', front :: rest) = dropLoop expectedPresent slots queue)
    (hd : deferred expectedPresent front = true) : (slots', front :: rest) = (slots, queue) := by
  fun_induction dropLoop expectedPresent slots queue with
  | case1 slots first next rest' ht ih =>
    have e := congrArg Prod.snd (ih h)
    obtain ⟨rfl, -⟩ := List.cons.inj e
    simp only [timely, Bool.and_eq_true, Bool.not_eq_true', Bool.or_eq_false_iff,
      decide_eq_false_iff_not] at ht
    simp only [deferred, Bool.and_eq_true, decide_eq_true_eq] at hd
    exact absurd hd.1 ht.2.2
  | case2 => exact h
  | case3 => exact h

theorem acquireBuffer_signals (expectedPresent : Int) :
    Signals core (core.acquireBuffer expectedPresent).2 := by
  unfold acquireBuffer
  split_ifs with _ he hx
  · exact .refl _
  · exact .refl _
  · obtain ⟨⟨slots, queue⟩, e⟩ : ∃ d, d = dropLoop expectedPresent core.slots core.queue := ⟨_, rfl⟩
    have hne : queue ≠ [] := by
      have hd := dropLoop_ne_nil expectedPresent core.slots (by simpa using he : core.queue ≠ [])
      rwa [← e] at hd
    rw [← e]
    obtain ⟨front, rest, rfl⟩ := List.exists_cons_of_ne_nil hne
    dsimp only
    split_ifs with hd
    · have heq := dropLoop_of_deferred e hd.2
      have hs : slots = core.slots := congrArg Prod.fst heq
      have hq : front :: rest = core.queue := congrArg Prod.snd heq
      exact .inr ⟨rfl, fun s => by rw [hs], hq, rfl⟩
    · exact .inl rfl
  · obtain ⟨front, rest, e⟩ := List.exists_cons_of_ne_nil (by simpa using he : core.queue ≠ [])
    rw [e]
    dsimp only
    rw [if_neg fun h => hx h.1]
    exact .inl rfl

theorem releaseBuffer_signals (slot : Int) (frame : Nat) :
    Signals core (core.releaseBuffer slot frame).2 := by
  unfold releaseBuffer
  split
  · exact .refl _
  · split_ifs
    · exact .refl _
    · exact .refl _
    · exact .inl rfl
    · exact .inr ⟨rfl, .setSlot rfl⟩
    · exact .refl _

theorem consumerConnect_signals (listener app : Bool) :
    Signals core (core.consumerConnect listener app).2 := by
  unfold consumerConnect
  split_ifs
  all_goals exact .inr ⟨rfl, fun _ => rfl, rfl, rfl⟩

theorem consumerDisconnect_signals : Signals core core.consumerDisconnect.2 := by
  unfold consumerDisconnect
  split_ifs
  · exact .refl _
  · exact .inl rfl

/-- **Every operation but `DequeueBuffer`** gives the signal or leaves room as it was. -/
theorem apply_signals (op : Op) (h : ∀ r, op ≠ .dequeueBuffer r) : Signals core (core.apply op).2 := by
  cases op with
  | requestBuffer slot => exact requestBuffer_signals slot
  | setBufferCount n => exact setBufferCount_signals n
  | dequeueBuffer r => exact absurd rfl (h r)
  | detachBuffer slot => exact detachBuffer_signals slot
  | queueBuffer slot input => exact queueBuffer_signals slot input
  | cancelBuffer slot fence => exact cancelBuffer_signals slot fence
  | connect api app => exact connect_signals api app
  | disconnect api => exact disconnect_signals api
  | setPreallocatedBuffer slot buffer => exact setPreallocatedBuffer_signals slot buffer
  | acquireBuffer expected => exact acquireBuffer_signals expected
  | releaseBuffer slot frame => exact releaseBuffer_signals slot frame
  | consumerConnect listener app => exact consumerConnect_signals listener app
  | consumerDisconnect => exact consumerDisconnect_signals

theorem storeAllocation_sameRoom (s : SlotIndex) (w : NvGraphicBuffer) :
    SameRoom core (core.storeAllocation s w).2 ∧
      (core.storeAllocation s w).2.dequeuePossible = core.dequeuePossible := by
  unfold storeAllocation
  split_ifs
  · exact ⟨⟨fun _ => rfl, rfl, rfl⟩, rfl⟩
  · refine ⟨⟨fun t => ?_, rfl, rfl⟩, rfl⟩
    by_cases ht : t = s
    · subst ht
      simp
    · simp [Function.update_of_ne ht]

end BufferQueueCore

/-! ## 2. Threads -/

/-- The core, the request of the thread that waits in `WaitForDequeueCondition`, and the buffers
that `DequeueBuffer` calls have made and not yet stored. -/
structure Threads where
  core : BufferQueueCore := {}
  waiting : Option DequeueRequest := none
  pending : List (SlotIndex × NvGraphicBuffer) := []

namespace Threads

open BufferQueueCore

variable {t t' : Threads}

/-- What a taken slot leaves to be stored. -/
def pend (s : SlotIndex) (allocation : Option NvGraphicBuffer)
    (pending : List (SlotIndex × NvGraphicBuffer)) : List (SlotIndex × NvGraphicBuffer) :=
  match allocation with
  | none => pending
  | some w => (s, w) :: pending

/-- **A section under the lock.** Any thread may run one; only one thread waits. -/
inductive Step : Threads → Threads → Prop where
  /-- An operation with one section. -/
  | call {t : Threads} (op : Op) (h : ∀ r, op ≠ .dequeueBuffer r) :
      Step t { t with core := (t.core.apply op).2 }
  /-- The first section of a `DequeueBuffer` that is refused. -/
  | refused {t : Threads} (r : DequeueRequest) (status : Status) (core' : BufferQueueCore)
      (valid : invalidSize r = false)
      (h : t.core.dequeueSlot (t.core.resolve r) = (.done status, core')) :
      Step t { t with core := core' }
  /-- The first section of a `DequeueBuffer` that finds a slot. -/
  | taken {t : Threads} (r : DequeueRequest) (s : SlotIndex) (fence : Fence) (attached rel : Bool)
      (allocation : Option NvGraphicBuffer) (core' : BufferQueueCore)
      (valid : invalidSize r = false)
      (h : t.core.dequeueSlot (t.core.resolve r) = (.taken s fence attached rel allocation, core')) :
      Step t { t with core := core', pending := pend s allocation t.pending }
  /-- The first section of a `DequeueBuffer` that has to wait. -/
  | block {t : Threads} (r : DequeueRequest) (core' : BufferQueueCore)
      (valid : invalidSize r = false) (alone : t.waiting = none)
      (h : t.core.dequeueSlot (t.core.resolve r) = (.waiting, core')) :
      Step t { t with core := core', waiting := some (t.core.resolve r) }
  /-- The waiting thread takes the signal back, and its call is refused. -/
  | wakeRefused {t : Threads} (r : DequeueRequest) (status : Status) (core' : BufferQueueCore)
      (waits : t.waiting = some r) (possible : t.core.dequeuePossible = true)
      (h : dequeueSlot { t.core with dequeuePossible := false } r = (.done status, core')) :
      Step t { t with core := core', waiting := none }
  /-- The waiting thread takes the signal back and finds a slot. -/
  | wakeTaken {t : Threads} (r : DequeueRequest) (s : SlotIndex) (fence : Fence)
      (attached rel : Bool) (allocation : Option NvGraphicBuffer) (core' : BufferQueueCore)
      (waits : t.waiting = some r) (possible : t.core.dequeuePossible = true)
      (h : dequeueSlot { t.core with dequeuePossible := false } r =
        (.taken s fence attached rel allocation, core')) :
      Step t { core := core', waiting := none, pending := pend s allocation t.pending }
  /-- The waiting thread takes the signal back and waits again. -/
  | wakeBlock {t : Threads} (r : DequeueRequest) (core' : BufferQueueCore)
      (waits : t.waiting = some r) (possible : t.core.dequeuePossible = true)
      (h : dequeueSlot { t.core with dequeuePossible := false } r = (.waiting, core')) :
      Step t { t with core := core' }
  /-- The second section of a `DequeueBuffer`. -/
  | store {t : Threads} (a : SlotIndex × NvGraphicBuffer) (h : a ∈ t.pending) :
      Step t { t with
        core := (t.core.storeAllocation a.1 a.2).2
        pending := t.pending.erase a }

/-- The states of every run from a new queue. -/
inductive Reachable : Threads → Prop where
  | start : Reachable {}
  | step {t t' : Threads} (h : Reachable t) (hs : Step t t') : Reachable t'

/-- **The invariant of the wait**: where there is room for the waiting thread, the signal stands. -/
def Awaited (t : Threads) : Prop :=
  t.waiting ≠ none → t.core.Ready → t.core.dequeuePossible = true

theorem Awaited.of_sameRoom {core' : BufferQueueCore} (h : t.Awaited)
    (hr : SameRoom t.core core') (hs : core'.dequeuePossible = t.core.dequeuePossible)
    {pending : List (SlotIndex × NvGraphicBuffer)} :
    Awaited { t with core := core', pending := pending } := by
  intro hw hready
  exact hs.trans (h hw (hr.ready_iff.mp hready))

theorem Awaited.of_section {core' : BufferQueueCore} (h : t.Awaited) (hr : core'.Ready → t.core.Ready)
    (hs : core'.dequeuePossible = t.core.dequeuePossible ∨ ¬t.core.Ready)
    {pending : List (SlotIndex × NvGraphicBuffer)} :
    Awaited { t with core := core', pending := pending } := by
  intro hw hready
  rcases hs with hs | hs
  · exact hs.trans (h hw (hr hready))
  · exact absurd (hr hready) hs

theorem takeSlot_ready {core core1 : BufferQueueCore} {s : SlotIndex} {w : NvGraphicBuffer}
    (hi : Idle core core1) (hb : s.val < core.getMaxBufferCountLocked false) :
    ((core1.takeSlot s w).2.2.Ready → core.Ready) ∧
      (core1.takeSlot s w).2.2.dequeuePossible = core1.dequeuePossible := by
  obtain ⟨new, e, hd, -⟩ := takeSlot_eq core1 s w
  rw [e]
  refine ⟨fun h => hi.sameRoom.ready_iff.mp (h.of_taken ?_ hd), rfl⟩
  rwa [hi.getMaxBufferCountLocked]

/-- **Every section keeps the invariant.** -/
theorem Step.awaited (h : t.Awaited) (hs : Step t t') : t'.Awaited := by
  cases hs with
  | call op hop =>
    rcases @BufferQueueCore.apply_signals t.core op hop with hsig | ⟨hsig, hroom⟩
    · exact fun _ _ => hsig
    · exact h.of_sameRoom hroom hsig
  | refused r status core' _ hd =>
    have hc := dequeueSlot_cases t.core (t.core.resolve r)
    rw [hd] at hc
    cases hc with
    | done _ _ hi hsig =>
      rw [tryAgain_eq_true] at hsig
      exact h.of_section hi.sameRoom.ready_iff.mp hsig
  | taken r s fence attached rel allocation core' _ hd =>
    have hc := dequeueSlot_cases t.core (t.core.resolve r)
    rw [hd] at hc
    cases hc with
    | taken _ _ core1 hi _ hb _ hsig =>
      obtain ⟨hready, hflag⟩ := takeSlot_ready hi hb
      rw [tryAgain_eq_true, ← hflag] at hsig
      exact h.of_section hready hsig
  | block r core' _ _ hd =>
    have hc := dequeueSlot_cases t.core (t.core.resolve r)
    rw [hd] at hc
    cases hc with
    | waiting _ hi hagain => exact fun _ hready => absurd hready ((tryAgain_eq_true _).mp hagain)
  | wakeRefused r status core' _ _ _ => exact fun hw => absurd rfl hw
  | wakeTaken r s fence attached rel allocation core' _ _ _ => exact fun hw => absurd rfl hw
  | wakeBlock r core' _ _ hd =>
    have hc := dequeueSlot_cases { t.core with dequeuePossible := false } r
    rw [hd] at hc
    cases hc with
    | waiting _ hi hagain => exact fun _ hready => absurd hready ((tryAgain_eq_true _).mp hagain)
  | store a _ =>
    obtain ⟨hroom, hsig⟩ := @BufferQueueCore.storeAllocation_sameRoom t.core a.1 a.2
    exact h.of_sameRoom hroom hsig

theorem Reachable.awaited (h : Reachable t) : t.Awaited := by
  induction h with
  | start => exact fun hw => absurd rfl hw
  | step _ hs ih => exact hs.awaited ih

theorem exists_wake {r : DequeueRequest} (hw : t.waiting = some r) (hr : t.core.Ready)
    (hp : t.core.dequeuePossible = true) : ∃ t', Step t t' ∧ t'.waiting = none := by
  have hc := dequeueSlot_cases { t.core with dequeuePossible := false } r
  obtain ⟨d, e⟩ : ∃ d, d = dequeueSlot { t.core with dequeuePossible := false } r := ⟨_, rfl⟩
  rw [← e] at hc
  cases hc with
  | done status core' _ _ => exact ⟨_, .wakeRefused r status core' hw hp e.symm, rfl⟩
  | waiting core' hi hagain =>
    have hready : core'.Ready :=
      (((Idle.consumed t.core false).trans hi).sameRoom).ready_iff.mpr hr
    exact absurd hready ((tryAgain_eq_true _).mp hagain)
  | taken s rel core' _ _ _ _ _ => exact ⟨_, .wakeTaken r s _ _ _ _ _ hw hp e.symm, rfl⟩

/-- **No lost wakeup.** In every state of every run, while a thread waits in `DequeueBuffer`: if a
slot below the maximum is free and the queue is not longer than that, the signal stands, and the
thread gets through when it takes it. -/
theorem no_lost_wakeup {r : DequeueRequest} (h : Reachable t) (hw : t.waiting = some r)
    (hr : t.core.Ready) :
    t.core.dequeuePossible = true ∧ ∃ t', Step t t' ∧ t'.waiting = none := by
  have hp := h.awaited (by rw [hw]; simp) hr
  exact ⟨hp, exists_wake hw hr hp⟩

def onePixel : DequeueRequest := ⟨false, 1#32, 1#32, .rgba8888, 0#32⟩

/-- One slot, and the producer has it. -/
def takenQueue : BufferQueueCore :=
  let core := (({} : BufferQueueCore).apply (.setBufferCount 1)).2
  (core.dequeueSlot (core.resolve onePixel)).2

/-- A thread waits for that slot, and the slot is given back. -/
def returnedThreads : Threads where
  core := ((takenQueue.dequeueSlot (takenQueue.resolve onePixel)).2.apply (.cancelBuffer 0 {})).2
  waiting := some (takenQueue.resolve onePixel)
  pending := [(0, ⟨1#32, 1#32, .rgba8888, 0#32⟩)]

theorem reachable_returnedThreads : Reachable returnedThreads := by
  refine .step (.step (.step (.step .start (.call (.setBufferCount 1) (by simp)))
    (.taken onePixel 0 .noFence false false (some ⟨1#32, 1#32, .rgba8888, 0#32⟩) takenQueue ?_
      (Prod.ext ?_ rfl))) (.block onePixel _ ?_ rfl (Prod.ext ?_ rfl)))
    (.call (.cancelBuffer 0 {}) (by simp)) <;> decide +kernel

theorem no_lost_wakeup_returned : Reachable returnedThreads ∧ returnedThreads.core.Ready ∧
    returnedThreads.core.dequeuePossible = true ∧ ∃ t', Step returnedThreads t' ∧ t'.waiting = none := by
  have hr : returnedThreads.core.Ready := ⟨⟨0, by decide +kernel, by decide +kernel⟩,
    by decide +kernel⟩
  exact ⟨reachable_returnedThreads, hr, no_lost_wakeup reachable_returnedThreads rfl hr⟩

end Threads

end Yuzu.Service
