/-
  File:      Yuzu/Core/CoreTimingRuns.lean
  Subject:   What holds of every run of CoreTiming: a type that was unscheduled stays silent, a
             one-shot event fires once and not too early, and callbacks are taken in order.

  `Advance` keeps a node over its callback. The sequence number of the type tells whether the node
  is still in the queue: only unscheduling its type takes it out, and raises the number.
-/
import Yuzu.Core.CoreTiming

namespace Yuzu.Core

open List Function

variable {e e' e'' : Event} {queue : List Event}

/-! ## 1. The order of the queue -/

theorem Event.before_iff : e.before e' = true ↔
    e.time < e'.time ∨ (e.time = e'.time ∧ e.fifoOrder < e'.fifoOrder) := by
  simp [Event.before]

theorem Event.not_before_iff : e.before e' = false ↔
    e'.time < e.time ∨ (e'.time = e.time ∧ e'.fifoOrder ≤ e.fifoOrder) := by
  rw [← Bool.not_eq_true, Event.before_iff]
  omega

/-- **The top of the queue** is in it, and nothing is before it. -/
theorem top_spec (h : top queue = some e) : e ∈ queue ∧ ∀ e' ∈ queue, e'.before e = false := by
  induction queue generalizing e with
  | nil => cases h
  | cons x queue ih =>
    rw [top] at h
    cases hrest : top queue with
    | none =>
      rw [hrest] at h
      cases h
      have hnil : queue = [] := by
        cases queue with
        | nil => rfl
        | cons y queue =>
          rw [top] at hrest
          split at hrest
          · cases hrest
          · split at hrest <;> cases hrest
      subst hnil
      refine ⟨mem_cons_self, fun e' he' => ?_⟩
      rw [mem_singleton.mp he', Event.not_before_iff]
      exact .inr ⟨rfl, Nat.le_refl _⟩
    | some y =>
      obtain ⟨hy, hmin⟩ := ih hrest
      rw [hrest] at h
      dsimp only at h
      split at h
      · next hbefore =>
        cases h
        refine ⟨mem_cons_of_mem _ hy, fun e' he' => ?_⟩
        rcases mem_cons.mp he' with rfl | he'
        · rw [Event.before_iff] at hbefore
          rw [Event.not_before_iff]
          omega
        · exact hmin e' he'
      · next hbefore =>
        cases h
        refine ⟨mem_cons_self, fun e' he' => ?_⟩
        rw [Bool.not_eq_true, Event.not_before_iff] at hbefore
        rcases mem_cons.mp he' with rfl | he'
        · rw [Event.not_before_iff]
          exact .inr ⟨rfl, Nat.le_refl _⟩
        · have hy' := hmin e' he'
          rw [Event.not_before_iff] at hy' ⊢
          omega

namespace CoreTiming

variable {s s' : CoreTiming} {a : TimingStep} {c : Callback} {type h : Nat}

/-! ## 2. The sections -/

/-- **What a round of `Advance` does**: it stops, goes on, or takes the callback of the top. -/
theorem advanceLoop_cases (s : CoreTiming) : s.advanceLoop = { s with advance := .idle } ∨
    s.advanceLoop = { s with globalTimer := s.now } ∨
    ∃ evt, top s.eventQueue = some evt ∧ evt.time ≤ s.globalTimer ∧
      ((evt.rescheduleTime = 0 ∧ s.advanceLoop = { s with
        eventQueue := s.eventQueue.erase evt
        advance := .callback ⟨evt.handle, evt.type, evt.time, s.sequenceNumber evt.type,
          false, false⟩ }) ∨
      (evt.rescheduleTime ≠ 0 ∧ s.advanceLoop = { s with
        advance := .callback ⟨evt.handle, evt.type, evt.time, s.sequenceNumber evt.type,
          true, false⟩ })) := by
  unfold advanceLoop
  cases htop : top s.eventQueue with
  | none => exact .inl rfl
  | some evt =>
    dsimp only
    by_cases htime : evt.time ≤ s.globalTimer
    · rw [if_pos htime]
      by_cases hexpired : s.expired evt.type = true
      · rw [if_pos hexpired]
        exact .inr (.inl rfl)
      · rw [if_neg hexpired]
        refine .inr (.inr ⟨evt, rfl, htime, ?_⟩)
        by_cases honce : evt.rescheduleTime = 0
        · rw [if_pos honce]
          exact .inl ⟨honce, rfl⟩
        · rw [if_neg honce]
          exact .inr ⟨honce, rfl⟩
    · rw [if_neg htime]
      exact .inl rfl

/-- **What `Advance` does after a callback**: it goes on, or puts the node back with a new time. -/
theorem callbackEnd_cases (s : CoreTiming) (c : Callback) (new : Option Int) :
    (s.callbackEnd c new = { s with globalTimer := s.now, advance := .loop } ∧ c.looping = false) ∨
    (s.callbackEnd c new = { s with advance := .loop } ∧ c.looping = true ∧
      c.evtSequenceNum ≠ s.sequenceNumber c.type) ∨
    (c.looping = true ∧ c.evtSequenceNum = s.sequenceNumber c.type ∧
      ((∀ e ∈ s.eventQueue, e.handle ≠ c.handle) ∨
      ∃ evt ∈ s.eventQueue, evt.handle = c.handle ∧ ∃ next, s.callbackEnd c new = { s with
          eventQueue := s.eventQueue.map fun e => if e.handle = c.handle then
            s.rescheduled evt next else e
          eventFifoId := s.eventFifoId + 1
          globalTimer := s.now
          advance := .loop })) := by
  unfold callbackEnd
  by_cases hloop : c.looping = false
  · rw [if_pos hloop]
    exact .inl ⟨rfl, hloop⟩
  rw [if_neg hloop]
  rw [Bool.not_eq_false] at hloop
  by_cases hseq : c.evtSequenceNum = s.sequenceNumber c.type
  · rw [if_neg (not_not.mpr hseq)]
    refine .inr (.inr ⟨hloop, hseq, ?_⟩)
    cases hfind : s.eventQueue.find? fun e => decide (e.handle = c.handle) with
    | none => exact .inl fun e he => by simpa using List.find?_eq_none.mp hfind e he
    | some evt =>
      have hhandle : evt.handle = c.handle := by simpa using List.find?_some hfind
      refine .inr ⟨evt, mem_of_find?_eq_some hfind, hhandle, new.getD evt.rescheduleTime, ?_⟩
      rw [← hhandle]
  · rw [if_pos hseq]
    exact .inr (.inl ⟨rfl, hloop, hseq⟩)

/-! ## 3. The invariant -/

/-- **The queue and the callback fit**: handles and fifo orders are used once, and the node of a
    looping callback is in the queue for as long as the sequence number says so. -/
structure Inv (s : CoreTiming) : Prop where
  handles : (s.eventQueue.map Event.handle).Nodup
  fifos : (s.eventQueue.map Event.fifoOrder).Nodup
  handle_lt : ∀ e ∈ s.eventQueue, e.handle < s.nextHandle
  fifo_lt : ∀ e ∈ s.eventQueue, e.fifoOrder < s.eventFifoId
  timer : s.globalTimer ≤ s.now
  running : ∀ c, s.advance = .callback c → c.handle < s.nextHandle ∧
    c.evtSequenceNum ≤ s.sequenceNumber c.type ∧
    (c.looping = true → c.evtSequenceNum = s.sequenceNumber c.type →
      ∃ e ∈ s.eventQueue, e.handle = c.handle ∧ e.type = c.type)
  fired_lt : ∀ f ∈ s.fired, f.handle < s.nextHandle
  fault : s.fault = false

theorem Inv.initial : Inv {} where
  handles := nodup_nil
  fifos := nodup_nil
  handle_lt _ h := nomatch h
  fifo_lt _ h := nomatch h
  timer := Int.le_refl _
  running _ h := nomatch h
  fired_lt _ h := nomatch h
  fault := rfl

theorem Inv.emplace (h : Inv s) {time resched : Int} : Inv (s.emplace time type resched) where
  handles := nodup_cons.mpr ⟨fun hmem => by
    obtain ⟨e, he, heq⟩ := mem_map.mp hmem
    exact absurd (h.handle_lt e he) (heq ▸ Nat.lt_irrefl _), h.handles⟩
  fifos := nodup_cons.mpr ⟨fun hmem => by
    obtain ⟨e, he, heq⟩ := mem_map.mp hmem
    exact absurd (h.fifo_lt e he) (heq ▸ Nat.lt_irrefl _), h.fifos⟩
  handle_lt e he := by
    rcases mem_cons.mp he with rfl | he
    · exact Nat.lt_succ_self _
    · exact Nat.lt_succ_of_lt (h.handle_lt e he)
  fifo_lt e he := by
    rcases mem_cons.mp he with rfl | he
    · exact Nat.lt_succ_self _
    · exact Nat.lt_succ_of_lt (h.fifo_lt e he)
  timer := h.timer
  running c hc := by
    obtain ⟨hlt, hle, hnode⟩ := h.running c hc
    refine ⟨Nat.lt_succ_of_lt hlt, hle, fun hloop hseq => ?_⟩
    obtain ⟨e, he, heq⟩ := hnode hloop hseq
    exact ⟨e, mem_cons_of_mem _ he, heq⟩
  fired_lt f hf := Nat.lt_succ_of_lt (h.fired_lt f hf)
  fault := h.fault

theorem Inv.unscheduleEvent (h : Inv s) : Inv (s.unscheduleEvent type) where
  handles := h.handles.sublist (filter_sublist.map _)
  fifos := h.fifos.sublist (filter_sublist.map _)
  handle_lt e he := h.handle_lt e (mem_filter.mp he).1
  fifo_lt e he := h.fifo_lt e (mem_filter.mp he).1
  timer := h.timer
  running c hc := by
    obtain ⟨hlt, hle, hnode⟩ := h.running c hc
    unfold CoreTiming.unscheduleEvent
    by_cases htype : c.type = type
    · -- the callback's own type: its number is behind from now on
      rw [htype] at hle ⊢
      simp only [update_self]
      exact ⟨hlt, Nat.le_succ_of_le hle, fun _ hseq => by omega⟩
    · simp only [update_of_ne htype]
      refine ⟨hlt, hle, fun hloop hseq => ?_⟩
      obtain ⟨e, he, heq, hety⟩ := hnode hloop hseq
      exact ⟨e, mem_filter.mpr ⟨he, by simpa [hety] using htype⟩, heq, hety⟩
  fired_lt := h.fired_lt
  fault := h.fault

theorem Inv.advanceLoop (h : Inv s) : Inv s.advanceLoop := by
  rcases advanceLoop_cases s with heq | heq | ⟨evt, htop, -, ⟨-, heq⟩ | ⟨-, heq⟩⟩
  · rw [heq]
    exact { h with running := fun _ hc => nomatch hc }
  · rw [heq]
    exact { h with timer := Int.le_refl _ }
  · rw [heq]
    have hmem := (top_spec htop).1
    exact {
      handles := h.handles.sublist (erase_sublist.map _)
      fifos := h.fifos.sublist (erase_sublist.map _)
      handle_lt := fun e he => h.handle_lt e (mem_of_mem_erase he)
      fifo_lt := fun e he => h.fifo_lt e (mem_of_mem_erase he)
      timer := h.timer
      running := fun c hc => by
        cases hc
        exact ⟨h.handle_lt evt hmem, Nat.le_refl _, fun hloop => nomatch hloop⟩
      fired_lt := h.fired_lt
      fault := h.fault }
  · rw [heq]
    have hmem := (top_spec htop).1
    exact { h with
      running := fun c hc => by
        cases hc
        exact ⟨h.handle_lt evt hmem, Nat.le_refl _, fun _ _ => ⟨evt, hmem, rfl, rfl⟩⟩ }

theorem rescheduled_handle {evt : Event} {next : Int} : (s.rescheduled evt next).handle = evt.handle := rfl

theorem Inv.callbackEnd (h : Inv s) (hc : s.advance = .callback c) {new : Option Int} :
    Inv (s.callbackEnd c new) := by
  rcases callbackEnd_cases s c new with ⟨heq, -⟩ | ⟨heq, -, -⟩ | ⟨hloop, hseq, hnone | hnode⟩
  · rw [heq]
    exact { h with timer := Int.le_refl _, running := fun _ hc => nomatch hc }
  · rw [heq]
    exact { h with running := fun _ hc => nomatch hc }
  · -- the node cannot have gone
    obtain ⟨e, he, heq, -⟩ := (h.running c hc).2.2 hloop hseq
    exact absurd heq (hnone e he)
  · obtain ⟨evt, hmem, hhandle, next, heq⟩ := hnode
    rw [heq]
    have hqueue : s.eventQueue.Nodup := List.Nodup.of_map _ h.handles
    exact {
      handles := by
        rw [map_map, map_congr_left (g := Event.handle) fun e _ => ?_]
        · exact h.handles
        · rw [comp_apply]
          split
          · next he => rw [rescheduled_handle, hhandle, he]
          · rfl
      fifos := by
        rw [map_map]
        refine hqueue.map_on fun e1 h1 e2 h2 hfifo => ?_
        simp only [comp_apply] at hfifo
        have hlt1 := h.fifo_lt e1 h1
        have hlt2 := h.fifo_lt e2 h2
        split at hfifo <;> split at hfifo
        · next he1 he2 => exact inj_on_of_nodup_map h.handles h1 h2 (he1.trans he2.symm)
        · exact absurd (hfifo ▸ hlt2) (Nat.lt_irrefl _)
        · exact absurd (hfifo ▸ hlt1) (Nat.lt_irrefl _)
        · exact inj_on_of_nodup_map h.fifos h1 h2 hfifo
      handle_lt := fun e he => by
        obtain ⟨e1, h1, rfl⟩ := mem_map.mp he
        split
        · exact h.handle_lt evt hmem
        · exact h.handle_lt e1 h1
      fifo_lt := fun e he => by
        obtain ⟨e1, h1, rfl⟩ := mem_map.mp he
        split
        · exact Nat.lt_succ_self _
        · exact Nat.lt_succ_of_lt (h.fifo_lt e1 h1)
      timer := Int.le_refl _
      running := fun _ hc => nomatch hc
      fired_lt := h.fired_lt
      fault := h.fault }

/-- **Every step keeps the invariant.** -/
theorem Inv.step (h : Inv s) (hstep : Step s a s') : Inv s' := by
  cases hstep with
  | scheduleEvent => exact h.emplace
  | scheduleLoopingEvent => exact h.emplace
  | unscheduleWait => exact { h.unscheduleEvent with }
  | unscheduleNoWait => exact h.unscheduleEvent
  | unscheduleReturn => exact { h with }
  | advance => exact { h with timer := Int.le_refl _, running := fun _ hc => nomatch hc }
  | advanceLoop => exact h.advanceLoop
  | callbackStart hadvance =>
    exact { h with
      running := fun c hc => by
        cases hc
        obtain ⟨hlt, hle, hnode⟩ := h.running _ hadvance
        exact ⟨hlt, hle, hnode⟩
      fired_lt := fun f hf => by
        rcases mem_cons.mp hf with rfl | hf
        · exact (h.running _ hadvance).1
        · exact h.fired_lt f hf }
  | callbackEnd hadvance => exact h.callbackEnd hadvance
  | expire => exact { h with }
  | pause => exact { h with }
  | tick hnow => exact { h with timer := Int.le_trans h.timer hnow }

theorem Inv.path {as : List TimingStep} (h : Inv s) (hpath : Path Step s as s') : Inv s' :=
  hpath.invariant Inv (fun _ _ _ _ hinv hstep => hinv.step hstep) h

/-! ## 4. A type that was unscheduled -/

/-- A type without an event; a callback of it that still runs will not put its event back. -/
structure Unscheduled (type : Nat) (s : CoreTiming) : Prop where
  queue : ∀ e ∈ s.eventQueue, e.type ≠ type
  callback : ∀ c, s.advance = .callback c → c.type = type → c.looping = true →
    c.evtSequenceNum < s.sequenceNumber type

/-- A type without an event and without a callback. -/
structure Silent (type : Nat) (s : CoreTiming) : Prop where
  queue : ∀ e ∈ s.eventQueue, e.type ≠ type
  callback : ∀ c, s.advance = .callback c → c.type ≠ type

theorem Inv.unscheduled (h : Inv s) : Unscheduled type (s.unscheduleEvent type) where
  queue e he := by simpa using (mem_filter.mp he).2
  callback c hc htype _ := by
    obtain ⟨-, hle, -⟩ := h.running c hc
    rw [htype] at hle
    simp only [CoreTiming.unscheduleEvent, update_self]
    exact Nat.lt_succ_of_le hle

theorem rescheduled_queue {evt : Event} {next : Int} (hevt : evt ∈ s.eventQueue)
    (hqueue : ∀ e ∈ s.eventQueue, e.type ≠ type) :
    ∀ e ∈ s.eventQueue.map fun e => if e.handle = c.handle then s.rescheduled evt next else e,
      e.type ≠ type := by
  intro e he
  obtain ⟨e1, h1, rfl⟩ := mem_map.mp he
  split
  · exact hqueue evt hevt
  · exact hqueue e1 h1

theorem Unscheduled.emplace (h : Unscheduled type s) {t : Nat} (ht : t ≠ type)
    {time resched : Int} : Unscheduled type (s.emplace time t resched) where
  queue e he := by
    rcases mem_cons.mp he with rfl | he
    · exact ht
    · exact h.queue e he
  callback := h.callback

theorem Unscheduled.unscheduleEvent (h : Unscheduled type s) {t : Nat} :
    Unscheduled type (s.unscheduleEvent t) where
  queue e he := h.queue e (mem_filter.mp he).1
  callback c hc htype hloop := by
    have hlt := h.callback c hc htype hloop
    simp only [CoreTiming.unscheduleEvent]
    by_cases ht : type = t
    · rw [← ht, update_self]
      exact Nat.lt_succ_of_lt hlt
    · rwa [update_of_ne ht]

/-- **Until a type is scheduled**, no step gives it an event. -/
theorem Unscheduled.step (hinv : Inv s) (h : Unscheduled type s) (hstep : Step s a s')
    (ha : ¬ a.Schedules type) : Unscheduled type s' := by
  cases hstep with
  | scheduleEvent => exact h.emplace ha
  | scheduleLoopingEvent => exact h.emplace ha
  | unscheduleWait => exact { h.unscheduleEvent with }
  | unscheduleNoWait => exact h.unscheduleEvent
  | unscheduleReturn => exact { h with }
  | advance => exact ⟨h.queue, fun _ hc => nomatch hc⟩
  | advanceLoop =>
    rcases advanceLoop_cases s with heq | heq | ⟨evt, htop, -, ⟨-, heq⟩ | ⟨-, heq⟩⟩ <;> rw [heq]
    · exact ⟨h.queue, fun _ hc => nomatch hc⟩
    · exact ⟨h.queue, h.callback⟩
    · refine ⟨fun e he => h.queue e (mem_of_mem_erase he), fun c hc htype hloop => ?_⟩
      cases hc
      cases hloop
    · refine ⟨h.queue, fun c hc htype _ => ?_⟩
      cases hc
      exact absurd htype (h.queue evt (top_spec htop).1)
  | callbackStart hadvance =>
    refine ⟨h.queue, fun c hc => ?_⟩
    cases hc
    have hold := h.callback _ hadvance
    exact hold
  | @callbackEnd c new hadvance =>
    rcases callbackEnd_cases s c new with ⟨heq, -⟩ | ⟨heq, -, -⟩ | ⟨hloop, hseq, hnone | hnode⟩
    · rw [heq]
      exact ⟨h.queue, fun _ hc => nomatch hc⟩
    · rw [heq]
      exact ⟨h.queue, fun _ hc => nomatch hc⟩
    · obtain ⟨e, he, heq, -⟩ := (hinv.running c hadvance).2.2 hloop hseq
      exact absurd heq (hnone e he)
    · obtain ⟨evt, hmem, -, next, heq⟩ := hnode
      rw [heq]
      exact ⟨rescheduled_queue hmem h.queue, fun _ hc => nomatch hc⟩
  | expire => exact { h with }
  | pause => exact { h with }
  | tick => exact { h with }

theorem Unscheduled.silent (h : Unscheduled type s) (hidle : s.advance = .idle) : Silent type s :=
  ⟨h.queue, fun c hc => by rw [hidle] at hc; cases hc⟩

/-- **Until a type is scheduled, silence stays.** -/
theorem Silent.step (hinv : Inv s) (h : Silent type s) (hstep : Step s a s')
    (ha : ¬ a.Schedules type) : Silent type s' := by
  have hqueue := (Unscheduled.step hinv
    ⟨h.queue, fun c hc htype => absurd htype (h.callback c hc)⟩ hstep ha).queue
  refine ⟨hqueue, ?_⟩
  cases hstep with
  | scheduleEvent => exact h.callback
  | scheduleLoopingEvent => exact h.callback
  | unscheduleWait => exact h.callback
  | unscheduleNoWait => exact h.callback
  | unscheduleReturn => exact h.callback
  | advance => exact fun _ hc => nomatch hc
  | advanceLoop =>
    rcases advanceLoop_cases s with heq | heq | ⟨evt, htop, -, ⟨-, heq⟩ | ⟨-, heq⟩⟩ <;> rw [heq]
    · exact fun _ hc => nomatch hc
    · exact h.callback
    · rintro c ⟨⟩
      exact h.queue evt (top_spec htop).1
    · rintro c ⟨⟩
      exact h.queue evt (top_spec htop).1
  | callbackStart hadvance =>
    rintro c ⟨⟩
    have hold := h.callback _ hadvance
    exact hold
  | @callbackEnd c new hadvance =>
    rcases callbackEnd_cases s c new with ⟨heq, -⟩ | ⟨heq, -, -⟩ | ⟨hloop, hseq, hnone | hnode⟩
    · rw [heq]
      exact fun _ hc => nomatch hc
    · rw [heq]
      exact fun _ hc => nomatch hc
    · obtain ⟨e, he, heq, -⟩ := (hinv.running c hadvance).2.2 hloop hseq
      exact absurd heq (hnone e he)
    · obtain ⟨evt, hmem, -, next, heq⟩ := hnode
      rw [heq]
      exact fun _ hc => nomatch hc
  | expire => exact h.callback
  | pause => exact h.callback
  | tick => exact h.callback

/-! ## 5. One-shot events -/

/-- How often an event is still to fire or has fired. -/
def chances (h : Nat) (s : CoreTiming) : Nat :=
  s.eventQueue.countP (fun e => e.handle = h) + (match s.advance with
      | .callback c => if c.handle = h ∧ c.started = false then 1 else 0
      | _ => 0) +
    s.fired.countP (fun f => f.handle = h)

/-- **A one-shot event**: it has one chance, and keeps its time until it fires. -/
structure OneShot (h : Nat) (time : Int) (s : CoreTiming) : Prop where
  known : h < s.nextHandle
  once : chances h s ≤ 1
  queue : ∀ e ∈ s.eventQueue, e.handle = h → e.time = time ∧ e.rescheduleTime = 0
  callback : ∀ c, s.advance = .callback c → c.handle = h →
    c.looping = false ∧ c.evtTime = time ∧ time ≤ s.now
  fired : ∀ f ∈ s.fired, f.handle = h → f.time = time ∧ time ≤ f.now

variable {time : Int}

theorem OneShot.emplace (hs : OneShot h time s) {t : Nat} {time' resched : Int} :
    OneShot h time (s.emplace time' t resched) where
  known := Nat.lt_succ_of_lt hs.known
  once := by
    have hne : ¬ s.nextHandle = h := (Nat.ne_of_lt hs.known).symm
    simpa [chances, CoreTiming.emplace, hne] using hs.once
  queue e he heq := by
    rcases mem_cons.mp he with rfl | he
    · exact absurd heq (Nat.ne_of_lt hs.known).symm
    · exact hs.queue e he heq
  callback := hs.callback
  fired := hs.fired

theorem OneShot.unscheduleEvent (hs : OneShot h time s) {t : Nat} :
    OneShot h time (s.unscheduleEvent t) where
  known := hs.known
  once := by
    have hle := hs.once
    have hsub := (filter_sublist (p := fun e => decide (e.type ≠ t))
      (l := s.eventQueue)).countP_le (p := fun e => decide (e.handle = h))
    simp only [chances, CoreTiming.unscheduleEvent] at hle ⊢
    omega
  queue e he := hs.queue e (mem_filter.mp he).1
  callback := hs.callback
  fired := hs.fired

theorem OneShot.advanceLoop (hs : OneShot h time s) (hinv : Inv s) (hloop : s.advance = .loop) :
    OneShot h time s.advanceLoop := by
  have honce := hs.once
  rw [chances, hloop] at honce
  dsimp only at honce
  rcases advanceLoop_cases s with heq | heq | ⟨evt, htop, htime, ⟨-, heq⟩ | ⟨hresched, heq⟩⟩ <;>
    rw [heq]
  · exact { hs with once := honce, callback := fun _ hc => nomatch hc }
  · refine { hs with once := ?_ }
    rw [chances]
    dsimp only
    rw [hloop]
    exact honce
  · -- the top of the queue is taken out, and its callback taken
    have hmem := (top_spec htop).1
    have hnow := Int.le_trans htime hinv.timer
    refine { hs with
      once := ?_
      queue := fun e he => hs.queue e (mem_of_mem_erase he)
      callback := fun c hc heq => ?_ }
    · rw [chances]
      dsimp only
      rw [countP_erase]
      by_cases hh : evt.handle = h
      · have hpos : 0 < s.eventQueue.countP fun e => decide (e.handle = h) :=
          countP_pos_iff.mpr ⟨evt, hmem, by simpa using hh⟩
        rw [if_pos ⟨hmem, by simpa using hh⟩, if_pos ⟨hh, rfl⟩]
        omega
      · rw [if_neg (by simpa using fun _ => hh), if_neg fun hc => hh hc.1]
        exact honce
    · cases hc
      obtain ⟨htime', -⟩ := hs.queue evt hmem heq
      exact ⟨rfl, htime', htime' ▸ hnow⟩
  · -- a looping event is another one
    have hmem := (top_spec htop).1
    have hne : evt.handle ≠ h := fun heq => hresched (hs.queue evt hmem heq).2
    refine { hs with once := ?_, callback := fun c hc heq => ?_ }
    · rw [chances]
      dsimp only
      rw [if_neg fun hc => hne hc.1]
      exact honce
    · cases hc
      exact absurd heq hne

theorem OneShot.callbackStart (hs : OneShot h time s) (hc : s.advance = .callback c)
    (hstarted : c.started = false) : OneShot h time (s.callbackStart c) := by
  have honce := hs.once
  rw [chances, hc] at honce
  dsimp only at honce
  refine { hs with once := ?_, callback := fun c' hc' => ?_, fired := fun f hf hh => ?_ }
  · rw [chances]
    simp only [CoreTiming.callbackStart, countP_cons]
    by_cases hh : c.handle = h
    · rw [if_pos ⟨hh, hstarted⟩] at honce
      simp only [hh, decide_true, if_true, and_false, if_false, Bool.true_eq_false]
      omega
    · simp only [hh, decide_false, false_and, if_false] at honce ⊢
      simpa using honce
  · cases hc'
    have hold := hs.callback c hc
    exact hold
  · rcases mem_cons.mp hf with rfl | hf
    · exact (hs.callback c hc hh).2
    · exact hs.fired f hf hh

theorem OneShot.callbackEnd (hs : OneShot h time s) (hinv : Inv s) (hc : s.advance = .callback c)
    (hstarted : c.started = true) {new : Option Int} : OneShot h time (s.callbackEnd c new) := by
  have honce := hs.once
  rw [chances, hc] at honce
  dsimp only at honce
  rw [if_neg (by simp [hstarted])] at honce
  rcases callbackEnd_cases s c new with ⟨heq, -⟩ | ⟨heq, -, -⟩ | ⟨hloop, hseq, hnone | hnode⟩
  · rw [heq]
    exact { hs with once := honce, callback := fun _ hc => nomatch hc }
  · rw [heq]
    exact { hs with once := honce, callback := fun _ hc => nomatch hc }
  · obtain ⟨e, he, heq, -⟩ := (hinv.running c hc).2.2 hloop hseq
    exact absurd heq (hnone e he)
  · obtain ⟨evt, hmem, hhandle, next, heq⟩ := hnode
    have hne : c.handle ≠ h := fun hh => by
      rw [(hs.callback c hc hh).1] at hloop
      cases hloop
    rw [heq]
    refine { hs with once := ?_, queue := fun e he hh => ?_, callback := fun _ hc => nomatch hc }
    · rw [chances]
      dsimp only
      rw [countP_map, countP_congr (q := fun e => decide (e.handle = h)) fun e _ => ?_]
      · exact honce
      · simp only [comp_apply]
        split
        · next he => simp [rescheduled_handle, hhandle, he]
        · rfl
    · obtain ⟨e1, h1, rfl⟩ := mem_map.mp he
      split at hh
      · rw [rescheduled_handle, hhandle] at hh
        exact absurd hh hne
      · next he1 =>
        rw [if_neg he1]
        exact hs.queue e1 h1 hh

/-- **Every step keeps a one-shot event's one chance.** -/
theorem OneShot.step (hs : OneShot h time s) (hinv : Inv s) (hstep : Step s a s') : OneShot h time s' := by
  cases hstep with
  | scheduleEvent => exact hs.emplace
  | scheduleLoopingEvent => exact hs.emplace
  | unscheduleWait => exact { hs.unscheduleEvent with }
  | unscheduleNoWait => exact hs.unscheduleEvent
  | unscheduleReturn => exact { hs with }
  | advance hadvance =>
    have honce := hs.once
    rw [chances, hadvance] at honce
    exact { hs with once := honce, callback := fun _ hc => nomatch hc }
  | advanceLoop hadvance => exact hs.advanceLoop hinv hadvance
  | callbackStart hadvance hstarted => exact hs.callbackStart hadvance hstarted
  | callbackEnd hadvance hstarted => exact hs.callbackEnd hinv hadvance hstarted
  | expire => exact { hs with }
  | pause => exact { hs with }
  | tick hnow =>
    exact { hs with
      callback := fun c hc hh => by
        obtain ⟨hloop, htime, hle⟩ := hs.callback c hc hh
        exact ⟨hloop, htime, Int.le_trans hle hnow⟩ }

theorem Inv.oneShot (hinv : Inv s) {t : Nat} : OneShot s.nextHandle time (s.emplace time t 0) where
  known := Nat.lt_succ_self _
  once := by
    have hqueue : s.eventQueue.countP (fun e => decide (e.handle = s.nextHandle)) = 0 := by
      rw [countP_eq_zero]
      intro e he
      simpa using (Nat.ne_of_lt (hinv.handle_lt e he))
    have hlog : s.fired.countP (fun f => decide (f.handle = s.nextHandle)) = 0 := by
      rw [countP_eq_zero]
      intro f hf
      simpa using (Nat.ne_of_lt (hinv.fired_lt f hf))
    have hcallback : ∀ c, s.advance = .callback c → ¬ c.handle = s.nextHandle := fun c hc =>
      Nat.ne_of_lt (hinv.running c hc).1
    simp only [chances, CoreTiming.emplace, countP_cons, hqueue, hlog, decide_true, if_true]
    split
    · next c hc => simp [hcallback c hc]
    · exact Nat.le_refl 1
  queue e he heq := by
    rcases mem_cons.mp he with rfl | he
    · exact ⟨rfl, rfl⟩
    · exact absurd heq (Nat.ne_of_lt (hinv.handle_lt e he))
  callback c hc heq := absurd heq (Nat.ne_of_lt (hinv.running c hc).1)
  fired f hf heq := absurd heq (Nat.ne_of_lt (hinv.fired_lt f hf))

/-! ## 6. Runs -/

/-- **Unscheduled types stay silent**: once a call of `UnscheduleEvent` that waits has returned, no
    callback of its type starts before the type is scheduled again. -/
def UnscheduledStaysSilent (s : CoreTiming) : Prop :=
  ∀ call type s₁ as s₂ s₃ bs s₄ c s₅, Step s (.unscheduleEvent call type true) s₁ →
    Path Step s₁ as s₂ → Step s₂ (.unscheduleReturn call) s₃ → Path Step s₃ bs s₄ →
    s₄.advance = .callback c → Step s₄ .callbackStart s₅ → c.type = type →
    ∃ a ∈ as ++ bs, a.Schedules type

/-- **One-shot events fire once**, and not before their time. -/
def FiresOnce (s : CoreTiming) : Prop :=
  ∀ ns type abs s₁ as s₂, Step s (.scheduleEvent ns type abs) s₁ → Path Step s₁ as s₂ →
    s₂.fired.countP (fun f => f.handle = s.nextHandle) ≤ 1 ∧
    ∀ f ∈ s₂.fired, f.handle = s.nextHandle → f.time = s.nextTime ns abs ∧ s.nextTime ns abs ≤ f.now

/-- **Callbacks are taken in order**: what `Advance` takes is due, and before all else queued. -/
def TakesInOrder (s : CoreTiming) : Prop :=
  ∀ s₁ c, Step s .advanceLoop s₁ → s₁.advance = .callback c → ∃ evt ∈ s.eventQueue,
    c.handle = evt.handle ∧ c.type = evt.type ∧ c.evtTime = evt.time ∧
    evt.time ≤ s.globalTimer ∧ ∀ e ∈ s.eventQueue, e ≠ evt → evt.before e = true

theorem Inv.unscheduledStaysSilent (hinv : Inv s) : UnscheduledStaysSilent s := by
  intro call type s1 as s2 s3 bs s4 c s5 h1 has h2 hbs hc hstart htype
  by_contra hnone
  have hnone : ∀ a ∈ as ++ bs, ¬ a.Schedules type := fun a ha hs => hnone ⟨a, ha, hs⟩
  have hinv1 := hinv.step h1
  have hun1 : Unscheduled type s1 := by
    cases h1 with
    | unscheduleWait => exact { hinv.unscheduled with }
  have hun2 := has.invariant (fun s => Inv s ∧ Unscheduled type s) (fun t a t' ha ht hstep =>
    ⟨ht.1.step hstep, ht.2.step ht.1 hstep (hnone a (mem_append_left _ ha))⟩) ⟨hinv1, hun1⟩
  have hsilent3 : Silent type s3 := by
    cases h2 with
    | unscheduleReturn hadvance => exact { hun2.2.silent hadvance with }
  have hsilent4 := hbs.invariant (fun s => Inv s ∧ Silent type s) (fun t a t' ha ht hstep =>
    ⟨ht.1.step hstep, ht.2.step ht.1 hstep (hnone a (mem_append_right _ ha))⟩)
    ⟨hun2.1.step h2, hsilent3⟩
  exact hsilent4.2.callback c hc htype

theorem Inv.firesOnce (hinv : Inv s) : FiresOnce s := by
  intro ns type abs s1 as s2 h1 has
  have hinv1 := hinv.step h1
  have hone1 : OneShot s.nextHandle (s.nextTime ns abs) s1 := by
    cases h1 with
    | scheduleEvent => exact hinv.oneShot
  obtain ⟨-, hone⟩ := has.invariant (fun t => Inv t ∧ OneShot s.nextHandle (s.nextTime ns abs) t)
    (fun t a t' _ ht hstep => ⟨ht.1.step hstep, ht.2.step ht.1 hstep⟩) ⟨hinv1, hone1⟩
  have honce := hone.once
  rw [chances] at honce
  exact ⟨by omega, hone.fired⟩

theorem Inv.takesInOrder (hinv : Inv s) : TakesInOrder s := by
  intro s1 c hstep hc
  obtain ⟨hloop, rfl⟩ : s.advance = .loop ∧ s1 = s.advanceLoop := by
    cases hstep with
    | advanceLoop hadvance => exact ⟨hadvance, rfl⟩
  have htake : ∃ evt, top s.eventQueue = some evt ∧ c.handle = evt.handle ∧ c.type = evt.type ∧
      c.evtTime = evt.time ∧ evt.time ≤ s.globalTimer := by
    rcases advanceLoop_cases s with heq | heq | ⟨evt, htop, htime, ⟨-, heq⟩ | ⟨-, heq⟩⟩ <;>
      rw [heq] at hc
    · cases hc
    · exact absurd (hloop.symm.trans hc) (by simp)
    · cases hc
      exact ⟨evt, htop, rfl, rfl, rfl, htime⟩
    · cases hc
      exact ⟨evt, htop, rfl, rfl, rfl, htime⟩
  obtain ⟨evt, htop, hhandle, htype, htime, hdue⟩ := htake
  obtain ⟨hmem, hmin⟩ := top_spec htop
  refine ⟨evt, hmem, hhandle, htype, htime, hdue, fun e he hne => ?_⟩
  have hle := hmin e he
  have hfifo : e.fifoOrder ≠ evt.fifoOrder := fun heq =>
    hne (inj_on_of_nodup_map hinv.fifos he hmem heq)
  rw [Event.not_before_iff] at hle
  rw [Event.before_iff]
  omega

/-- **Events fire as they are scheduled**, in every state that the steps of any threads lead to. -/
theorem events_fire_as_scheduled {as : List TimingStep} (hpath : Path Step {} as s) :
    UnscheduledStaysSilent s ∧ FiresOnce s ∧ TakesInOrder s :=
  have hinv := Inv.initial.path hpath
  ⟨hinv.unscheduledStaysSilent, hinv.firesOnce, hinv.takesInOrder⟩

/-- A run in which an event is due and `Advance` is about to take it. -/
theorem events_fire_as_scheduled_due :
    TakesInOrder { (CoreTiming.scheduleEvent {} 0 7 true) with advance := .loop } :=
  (events_fire_as_scheduled (.cons (.scheduleEvent (by decide) rfl) (.cons (.advance rfl) (.nil _)))).2.2

end CoreTiming

end Yuzu.Core
