/-
  File:      Yuzu/Core/CoreTimingAdvance.lean
  Subject:   When `CoreTiming::Advance` ends, while the clock stands still.

  A round of the loop takes the event at the top. `Outside` says what goes on around the callbacks: the
  steps of the callback and of other threads, the period that is returned, and what happens before the
  next round. A round takes a due event out or moves it to a later time, but for an event whose type was
  destroyed: nothing is done about that one, and the loop meets it again.
-/
import Mathlib.Algebra.Order.BigOperators.Group.List
import Mathlib.Algebra.Order.Ring.Nat
import Yuzu.Core.CoreTimingRuns

namespace Yuzu.Core

open List Function

namespace CoreTiming

/-! ## 1. Rounds -/

/-- What goes on around a callback: the steps while it runs, what it returns, and the steps before the
next round, when `basic_lock` is held again. -/
structure Outside where
  during : List TimingStep
  newScheduleTime : Option Int
  between : List TimingStep

/-- A step that is not one of `Advance` itself. -/
def outsideStep (s : CoreTiming) : TimingStep → Unit × CoreTiming
  | .scheduleEvent ns type abs => ((), s.scheduleEvent ns type abs)
  | .scheduleLoopingEvent start resched type abs => ((), s.scheduleLoopingEvent start resched type abs)
  | .unscheduleEvent call type wait =>
    ((), if wait then { s.unscheduleEvent type with waiting := call :: s.waiting }
      else s.unscheduleEvent type)
  | .expire type => ((), { s with expired := Function.update s.expired type true })
  | .pause => ((), { s with pauseEndTime := s.now })
  | _ => ((), s)

/-- A round of the loop of `Advance`. -/
def round (outside : CoreTiming → Outside) (s : CoreTiming) : CoreTiming :=
  if s.advance = .loop then
    match s.advanceLoop.advance with
    | .callback c =>
      let s := s.advanceLoop.callbackStart c
      let o := outside s
      let s := after outsideStep s o.during
      after outsideStep (s.callbackEnd { c with started := true } o.newScheduleTime) o.between
    | _ => s.advanceLoop
  else s

/-- `Advance` takes its locks and reads the clock. -/
def beginAdvance (s : CoreTiming) : CoreTiming := { s with globalTimer := s.now, advance := .loop }

/-- The state after some rounds. -/
def afterRounds (outside : CoreTiming → Outside) (s : CoreTiming) (n : Nat) : CoreTiming :=
  (round outside)^[n] s.beginAdvance

/-! ## 2. What is claimed -/

/-- A step that callbacks and other threads may take: nothing due is scheduled, and periods are positive.
The clock stands still. -/
def Polite (s : CoreTiming) : TimingStep → Prop
  | .scheduleEvent ns type abs => s.expired type = false ∧ s.now < s.nextTime ns abs
  | .scheduleLoopingEvent start resched type abs =>
    s.expired type = false ∧ s.now < s.nextTime start abs ∧ 0 < resched
  | .unscheduleEvent _ type _ => s.expired type = false
  | .expire type => ∀ c, s.advance = .callback c → c.type ≠ type
  | .pause => True
  | _ => False

/-- With `basic_lock` held, a type can be destroyed or a pause end. -/
def Locked : TimingStep → Prop
  | .expire _ => True
  | .pause => True
  | _ => False

/-- **What goes on around the callbacks is as it should be.** -/
structure PoliteOutside (outside : CoreTiming → Outside) : Prop where
  during : ∀ s c, s.advance = .callback c → AllSteps outsideStep Polite s (outside s).during
  period : ∀ s c p, s.advance = .callback c → (outside s).newScheduleTime = some p → 0 < p
  between : ∀ s c, s.advance = .callback c → ∀ a ∈ (outside s).between, Locked a

/-- **`Advance` ends, and leaves no due event.** -/
def Terminates (outside : CoreTiming → Outside) (s : CoreTiming) : Prop :=
  ∃ n, (afterRounds outside s n).advance = .idle ∧
    ∀ e ∈ (afterRounds outside s n).eventQueue, (afterRounds outside s n).now < e.time

/-- No due event has a type that was destroyed. -/
def NoneDestroyed (s : CoreTiming) : Prop :=
  ∀ e ∈ s.eventQueue, e.time ≤ s.now → s.expired e.type = false

/-! ## 3. Steps around a callback -/

variable {s s' t : CoreTiming} {a : TimingStep} {as : List TimingStep} {c : Callback} {e x : Event}
  {outside : CoreTiming → Outside}

theorem outsideStep_step (hbasic : s.advance ≠ .loop) (ha : s.Polite a) : Step s a (s.outsideStep a).2 := by
  cases a with
  | scheduleEvent ns type abs => exact .scheduleEvent hbasic ha.1
  | scheduleLoopingEvent start resched type abs => exact .scheduleLoopingEvent hbasic ha.1
  | unscheduleEvent call type wait =>
    cases wait with
    | true => exact .unscheduleWait hbasic ha
    | false => exact .unscheduleNoWait hbasic ha
  | expire type => exact .expire ha
  | pause => exact .pause
  | _ => exact absurd ha id

theorem outsideStep_fields : (s.outsideStep a).2.advance = s.advance ∧ (s.outsideStep a).2.now = s.now ∧
    (s.outsideStep a).2.globalTimer = s.globalTimer := by
  cases a with
  | unscheduleEvent call type wait => cases wait <;> exact ⟨rfl, rfl, rfl⟩
  | _ => exact ⟨rfl, rfl, rfl⟩

theorem after_fields (s : CoreTiming) (as : List TimingStep) : (after outsideStep s as).advance = s.advance ∧
    (after outsideStep s as).now = s.now ∧ (after outsideStep s as).globalTimer = s.globalTimer := by
  induction as generalizing s with
  | nil => exact ⟨rfl, rfl, rfl⟩
  | cons a as ih =>
    rw [after_cons]
    obtain ⟨h1, h2, h3⟩ := ih (s.outsideStep a).2
    obtain ⟨h1', h2', h3'⟩ := outsideStep_fields (s := s) (a := a)
    exact ⟨h1.trans h1', h2.trans h2', h3.trans h3'⟩

theorem outsideSteps_path (hbasic : s.advance ≠ .loop) (has : AllSteps outsideStep Polite s as) :
    Path Step s as (after outsideStep s as) := by
  induction as generalizing s with
  | nil => exact .nil s
  | cons a as ih =>
    exact .cons (outsideStep_step hbasic has.1) (ih (by rwa [outsideStep_fields.1]) has.2)

theorem locked_path (hbasic : s.advance = .loop) (has : ∀ a ∈ as, Locked a) :
    Path Step s as (after outsideStep s as) := by
  induction as generalizing s with
  | nil => exact .nil s
  | cons a as ih =>
    have hrest := ih (s := (s.outsideStep a).2) (by rwa [outsideStep_fields.1])
      fun b hb => has b (mem_cons_of_mem a hb)
    have ha := has a mem_cons_self
    cases a with
    | expire type => exact .cons (.expire fun c hc => by rw [hbasic] at hc; cases hc) hrest
    | pause => exact .cons .pause hrest
    | _ => exact absurd ha id

theorem callbackEnd_fields (s : CoreTiming) (c : Callback) (new : Option Int) : (s.callbackEnd c new).advance = .loop ∧
    (s.callbackEnd c new).now = s.now ∧ (s.callbackEnd c new).expired = s.expired := by
  rw [callbackEnd]
  split
  · exact ⟨rfl, rfl, rfl⟩
  · split
    · exact ⟨rfl, rfl, rfl⟩
    · split <;> exact ⟨rfl, rfl, rfl⟩

/-- **A round is a run of steps.** -/
theorem round_path (houtside : PoliteOutside outside) (s : CoreTiming) :
    ∃ as, Path Step s as (round outside s) := by
  rw [round]
  split
  · rename_i hloop
    split
    · rename_i c hc
      have hstart : c.started = false := by
        rcases advanceLoop_cases s with heq | heq | ⟨evt, -, -, ⟨-, heq⟩ | ⟨-, heq⟩⟩ <;> rw [heq] at hc
        · cases hc
        · rw [hloop] at hc
          cases hc
        · cases hc
          rfl
        · cases hc
          rfl
      have hadvance : (s.advanceLoop.callbackStart c).advance = .callback { c with started := true } := rfl
      generalize ht : s.advanceLoop.callbackStart c = t at hadvance
      have hduring := outsideSteps_path (by rw [hadvance]; nofun) (houtside.during t _ hadvance)
      have hafter : (after outsideStep t (outside t).during).advance = .callback { c with started := true } :=
        (after_fields _ _).1.trans hadvance
      have hend : Step _ (.callbackEnd (outside t).newScheduleTime) _ := .callbackEnd hafter rfl
      have hbetween := locked_path (s := (after outsideStep t (outside t).during).callbackEnd
        { c with started := true } (outside t).newScheduleTime) (callbackEnd_fields _ _ _).1
        (houtside.between t _ hadvance)
      have htaken : Step s.advanceLoop .callbackStart t := by
        rw [← ht]
        exact .callbackStart hc hstart
      exact ⟨_, .cons (.advanceLoop hloop) (.cons htaken (hduring.append (.cons hend hbetween)))⟩
    · exact ⟨_, .cons (.advanceLoop hloop) (.nil _)⟩
  · exact ⟨[], .nil s⟩

/-- **What a step around a callback does** to the queue, the sequence numbers and the types. -/
theorem outsideStep_cases (ha : s.Polite a) (ht : t = (s.outsideStep a).2) :
    (∃ x, t.eventQueue = x :: s.eventQueue ∧ s.now < x.time ∧ 0 ≤ x.rescheduleTime ∧
      t.sequenceNumber = s.sequenceNumber ∧ t.expired = s.expired) ∨
    (∃ type, s.expired type = false ∧ t.eventQueue = (s.eventQueue.filter fun e => e.type ≠ type) ∧
      t.sequenceNumber = Function.update s.sequenceNumber type (s.sequenceNumber type + 1) ∧
      t.expired = s.expired) ∨
    (t.eventQueue = s.eventQueue ∧ t.sequenceNumber = s.sequenceNumber ∧
      ∀ type, s.expired type = true → t.expired type = true) := by
  rw [ht]
  cases a with
  | scheduleEvent ns type abs => exact .inl ⟨_, rfl, ha.2, Int.le_refl 0, rfl, rfl⟩
  | scheduleLoopingEvent start resched type abs =>
    exact .inl ⟨_, rfl, ha.2.1, Int.le_of_lt ha.2.2, rfl, rfl⟩
  | unscheduleEvent call type wait =>
    refine .inr (.inl ⟨type, ha, ?_⟩)
    cases wait <;> exact ⟨rfl, rfl, rfl⟩
  | expire type =>
    refine .inr (.inr ⟨rfl, rfl, fun type' h => ?_⟩)
    rw [outsideStep]
    dsimp only
    by_cases e : type' = type
    · rw [e, update_self]
    · rw [update_of_ne e]
      exact h
  | pause => exact .inr (.inr ⟨rfl, rfl, fun _ h => h⟩)
  | _ => exact absurd ha id

/-! ## 4. The measure -/

/-- How far an event is due. -/
def weight (now : Int) (e : Event) : Nat := (now + 1 - e.time).toNat

/-- How far all events are due together. -/
def total (s : CoreTiming) : Nat := (s.eventQueue.map (weight s.now)).sum

theorem weight_pos {now : Int} (h : e.time ≤ now) : 0 < weight now e := by
  rw [weight]
  omega

theorem weight_eq_zero {now : Int} (h : now < e.time) : weight now e = 0 := by
  rw [weight]
  omega

theorem sum_filter_le (p : Event → Bool) (f : Event → Nat) (queue : List Event) :
    ((queue.filter p).map f).sum ≤ (queue.map f).sum :=
  (filter_sublist.map f).sum_le_sum fun _ _ => Nat.zero_le _

theorem sum_filter_add_le {p : Event → Bool} (f : Event → Nat) {queue : List Event} (he : e ∈ queue)
    (hp : p e = false) : ((queue.filter p).map f).sum + f e ≤ (queue.map f).sum := by
  obtain ⟨A, B, rfl⟩ := append_of_mem he
  have hA := sum_filter_le p f A
  have hB := sum_filter_le p f B
  rw [filter_append, filter_cons_of_neg (by rw [hp]; decide), map_append, map_append,
    map_cons, sum_append, sum_append, sum_cons]
  omega

/-! ## 5. What a round does -/

/-- At the head of the loop, with the clock read. -/
structure Ready (s : CoreTiming) : Prop where
  inv : Inv s
  loop : s.advance = .loop
  timer : s.globalTimer = s.now
  periods : ∀ e ∈ s.eventQueue, 0 ≤ e.rescheduleTime

/-- Steps around a callback: periods stay positive, and nothing due is added. -/
theorem during_total (has : AllSteps outsideStep Polite s as) (hperiods : ∀ e ∈ s.eventQueue, 0 ≤ e.rescheduleTime) :
    (∀ e ∈ (after outsideStep s as).eventQueue, 0 ≤ e.rescheduleTime) ∧
      (after outsideStep s as).total ≤ s.total := by
  refine (has.after (fun t => t.now = s.now ∧ (∀ e ∈ t.eventQueue, 0 ≤ e.rescheduleTime) ∧
    t.total ≤ s.total) ?_ ⟨rfl, hperiods, Nat.le_refl _⟩).2
  intro t a ⟨hnow, hperiods, hle⟩ ha
  refine ⟨outsideStep_fields.2.1.trans hnow, ?_⟩
  generalize ht' : (t.outsideStep a).2 = t'
  have hnow' : t'.now = t.now := by rw [← ht', outsideStep_fields.2.1]
  rw [total, hnow']
  rcases outsideStep_cases ha ht'.symm with ⟨x, hq, hx, hresched, -, -⟩ | ⟨type, -, hq, -, -⟩ | ⟨hq, -, -⟩
  · rw [hq]
    refine ⟨fun e he => ?_, ?_⟩
    · rcases mem_cons.mp he with rfl | he
      · exact hresched
      · exact hperiods e he
    · rw [map_cons, sum_cons, weight_eq_zero hx, Nat.zero_add]
      exact hle
  · rw [hq]
    exact ⟨fun e he => hperiods e (mem_filter.mp he).1, Nat.le_trans (sum_filter_le _ _ _) hle⟩
  · rw [hq]
    exact ⟨hperiods, hle⟩

/-- Steps around the callback of a looping event: it stays in the queue, or its type was unscheduled, and
then what was due of it is gone. -/
theorem during_looping (has : AllSteps outsideStep Polite s as) (he : e ∈ s.eventQueue) :
    e ∈ (after outsideStep s as).eventQueue ∧
      (after outsideStep s as).sequenceNumber e.type = s.sequenceNumber e.type ∨
    s.sequenceNumber e.type < (after outsideStep s as).sequenceNumber e.type ∧
      (after outsideStep s as).total + weight s.now e ≤ s.total := by
  refine (has.after (fun t => t.now = s.now ∧ t.total ≤ s.total ∧
    (e ∈ t.eventQueue ∧ t.sequenceNumber e.type = s.sequenceNumber e.type ∨
      s.sequenceNumber e.type < t.sequenceNumber e.type ∧ t.total + weight s.now e ≤ s.total))
    ?_ ⟨rfl, Nat.le_refl _, .inl ⟨he, rfl⟩⟩).2.2
  intro t a ⟨hnow, hle, hevent⟩ ha
  refine ⟨outsideStep_fields.2.1.trans hnow, ?_⟩
  generalize ht' : (t.outsideStep a).2 = t'
  have hnow' : t'.now = t.now := by rw [← ht', outsideStep_fields.2.1]
  rcases outsideStep_cases ha ht'.symm with ⟨x, hq, hx, -, hseq, -⟩ | ⟨type, -, hq, hseq, -⟩ | ⟨hq, hseq, -⟩
  · have htotal : t'.total = t.total := by
      rw [total, total, hnow', hq, map_cons, sum_cons, weight_eq_zero hx, Nat.zero_add]
    rw [htotal, hseq, hq]
    exact ⟨hle, hevent.imp_left fun h => ⟨mem_cons_of_mem x h.1, h.2⟩⟩
  · have htotal : t'.total ≤ t.total := by
      rw [total, total, hnow', hq]
      exact sum_filter_le _ _ _
    refine ⟨Nat.le_trans htotal hle, ?_⟩
    rw [hseq]
    rcases hevent with ⟨hmem, hsame⟩ | ⟨hlt, hgone⟩
    · by_cases htype : e.type = type
      · right
        rw [← htype, update_self]
        refine ⟨by omega, Nat.le_trans ?_ hle⟩
        rw [total, total, hnow', hq, ← hnow]
        exact sum_filter_add_le _ hmem (decide_eq_false (not_not_intro htype))
      · left
        rw [update_of_ne htype, hq]
        exact ⟨mem_filter.mpr ⟨hmem, decide_eq_true htype⟩, hsame⟩
    · right
      refine ⟨?_, by omega⟩
      by_cases htype : e.type = type
      · rw [htype, update_self]
        rw [htype] at hlt
        omega
      · rwa [update_of_ne htype]
  · have htotal : t'.total = t.total := by rw [total, total, hnow', hq]
    rw [htotal, hseq, hq]
    exact ⟨hle, hevent⟩

theorem between_fields (has : ∀ a ∈ as, Locked a) : (after outsideStep s as).eventQueue = s.eventQueue ∧
      ∀ type, s.expired type = true → (after outsideStep s as).expired type = true := by
  induction as generalizing s with
  | nil => exact ⟨rfl, fun _ h => h⟩
  | cons a as ih =>
    obtain ⟨hq, hexpired⟩ := ih (s := (s.outsideStep a).2) fun b hb => has b (mem_cons_of_mem a hb)
    have ha := has a mem_cons_self
    cases a with
    | expire type =>
      refine ⟨hq, fun type' h => hexpired type' ?_⟩
      rw [outsideStep]
      dsimp only
      by_cases e : type' = type
      · rw [e, update_self]
      · rw [update_of_ne e]
        exact h
    | pause => exact ⟨hq, hexpired⟩
    | _ => exact absurd ha id

/-- A looping callback whose event is still there: the event moves past its time. -/
theorem callbackEnd_again (new : Option Int) (hinv : Inv s) (he : e ∈ s.eventQueue)
    (hc : c.looping = true) (hhandle : c.handle = e.handle) (htype : c.type = e.type)
    (hseq : c.evtSequenceNum = s.sequenceNumber e.type) (hdue : e.time ≤ s.now)
    (hresched : 0 < e.rescheduleTime) (hnew : ∀ p, new = some p → 0 < p)
    (hperiods : ∀ e ∈ s.eventQueue, 0 ≤ e.rescheduleTime) :
    (s.callbackEnd c new).globalTimer = s.now ∧ (s.callbackEnd c new).total < s.total ∧
      ∀ e ∈ (s.callbackEnd c new).eventQueue, 0 ≤ e.rescheduleTime := by
  have hunique : ∀ e' ∈ s.eventQueue, e'.handle = e.handle → e' = e := fun e' he' h =>
    inj_on_of_nodup_map hinv.handles he' he h
  have hfind : s.eventQueue.find? (fun e' => decide (e'.handle = c.handle)) = some e := by
    cases hfind : s.eventQueue.find? (fun e' => decide (e'.handle = c.handle)) with
    | none =>
      have := List.find?_eq_none.mp hfind e he
      rw [hhandle] at this
      exact absurd (decide_eq_true rfl) this
    | some e' =>
      have h : e'.handle = c.handle := by simpa using List.find?_some hfind
      rw [hunique e' (mem_of_find?_eq_some hfind) (h.trans hhandle)]
  have hnext : 0 < new.getD e.rescheduleTime := by
    cases new with
    | none => exact hresched
    | some p => exact hnew p rfl
  have hlater : weight s.now (s.rescheduled e (new.getD e.rescheduleTime)) < weight s.now e := by
    have htime : e.time < (s.rescheduled e (new.getD e.rescheduleTime)).time := by
      rw [rescheduled]
      dsimp only
      split <;> omega
    rw [weight, weight]
    omega
  rw [callbackEnd, if_neg (by rw [hc]; decide), if_neg (by rw [hseq, htype]; exact not_not_intro rfl), hfind]
  refine ⟨rfl, ?_, fun e' he' => ?_⟩
  · rw [total, total]
    dsimp only
    rw [map_map]
    refine sum_lt_sum _ _ (fun e' he' => ?_) ⟨e, he, ?_⟩
    · rw [comp_apply]
      split
      · rename_i h
        rw [hunique e' he' h]
        exact Nat.le_of_lt hlater
      · exact Nat.le_refl _
    · rw [comp_apply, if_pos rfl]
      exact hlater
  · obtain ⟨e'', he'', rfl⟩ := mem_map.mp he'
    split
    · exact Int.le_of_lt hnext
    · exact hperiods e'' he''

theorem top_eq_none {queue : List Event} (h : top queue = none) : queue = [] := by
  cases queue with
  | nil => rfl
  | cons e queue =>
    rw [top] at h
    split at h
    · cases h
    · split at h <;> cases h

theorem round_of_stay (hloop : s.advance = .loop) (h : ∀ c, s.advanceLoop.advance ≠ .callback c) :
    round outside s = s.advanceLoop := by
  rw [round, if_pos hloop]
  split
  · rename_i c hc
    exact absurd hc (h c)
  · rfl

theorem round_of_callback (hloop : s.advance = .loop) (hc : s.advanceLoop.advance = .callback c)
    (ht : t = s.advanceLoop.callbackStart c) :
    round outside s = after outsideStep ((after outsideStep t (outside t).during).callbackEnd
      { c with started := true } (outside t).newScheduleTime) (outside t).between := by
  rw [round, if_pos hloop, ht]
  simp only [hc]

theorem Ready.again (hbetween : ∀ a ∈ as, Locked a) (hinv : Inv (after outsideStep t as))
    (hloop : t.advance = .loop) (htimer : t.globalTimer = t.now) (hnow : t.now = s.now)
    (hperiods : ∀ e ∈ t.eventQueue, 0 ≤ e.rescheduleTime) (htotal : t.total < s.total) :
    (after outsideStep t as).now = s.now ∧ Ready (after outsideStep t as) ∧
      (after outsideStep t as).total < s.total := by
  obtain ⟨h1, h2, h3⟩ := after_fields t as
  obtain ⟨hq, -⟩ := between_fields hbetween (s := t)
  refine ⟨h2.trans hnow, ⟨hinv, h1.trans hloop, by rw [h3, h2, htimer], by rwa [hq]⟩, ?_⟩
  rw [total, hq, h2]
  exact htotal

/-- **A round, where no due event was given up**: the loop ends with nothing due, or less is due than
before. -/
theorem Ready.next (houtside : PoliteOutside outside) (h : Ready s) (hclean : s.NoneDestroyed) :
    (round outside s).now = s.now ∧
      ((round outside s).advance = .idle ∧ (∀ e ∈ (round outside s).eventQueue, s.now < e.time) ∨
        Ready (round outside s) ∧ (round outside s).total < s.total) := by
  obtain ⟨path, hpath⟩ := round_path houtside s
  have hinv := h.inv.path hpath
  cases htop : top s.eventQueue with
  | none =>
    have hq := top_eq_none htop
    have e : s.advanceLoop = { s with advance := .idle } := by rw [advanceLoop, htop]
    rw [round_of_stay h.loop (by rw [e]; nofun), e]
    refine ⟨rfl, .inl ⟨rfl, fun e he => ?_⟩⟩
    rw [show ({ s with advance := .idle } : CoreTiming).eventQueue = [] from hq] at he
    cases he
  | some evt =>
    obtain ⟨hmem, hmin⟩ := top_spec htop
    by_cases hdue : evt.time ≤ s.globalTimer
    · have hnow : evt.time ≤ s.now := by rwa [← h.timer]
      have hlive : ¬s.expired evt.type = true := by rw [hclean evt hmem hnow]; decide
      have hpos := weight_pos hnow
      by_cases honce : evt.rescheduleTime = 0
      · -- a one-shot event leaves the queue
        obtain ⟨c, hcdef⟩ : ∃ c : Callback, c =
          ⟨evt.handle, evt.type, evt.time, s.sequenceNumber evt.type, false, false⟩ := ⟨_, rfl⟩
        obtain ⟨t, ht⟩ : ∃ t, t = s.advanceLoop.callbackStart c := ⟨_, rfl⟩
        have e : s.advanceLoop = { s with eventQueue := s.eventQueue.erase evt, advance := .callback c } := by
          rw [advanceLoop, htop, hcdef]
          dsimp only
          rw [if_pos hdue, if_neg hlive, if_pos honce]
        have hadvance : t.advance = .callback { c with started := true } := by rw [ht]; rfl
        rw [round_of_callback h.loop (by rw [e]) ht] at hinv ⊢
        rw [e] at ht
        have htotal : t.total + weight s.now evt = s.total := by
          rw [ht, total, total, Nat.add_comm]
          exact sum_map_erase (weight s.now) hmem
        obtain ⟨hperiods, hle⟩ := during_total (houtside.during t _ hadvance)
          (by rw [ht]; exact fun e he => h.periods e (mem_of_mem_erase he))
        obtain ⟨-, hunow, -⟩ := after_fields t (outside t).during
        have hend : (after outsideStep t (outside t).during).callbackEnd { c with started := true }
            (outside t).newScheduleTime = { after outsideStep t (outside t).during with
              globalTimer := (after outsideStep t (outside t).during).now, advance := .loop } :=
          if_pos (by rw [hcdef])
        rw [hend] at hinv ⊢
        obtain ⟨h1, h2⟩ := Ready.again (s := s) (houtside.between t _ hadvance) hinv rfl rfl
          (hunow.trans (by rw [ht]; rfl)) hperiods (Nat.lt_of_le_of_lt hle (by omega))
        exact ⟨h1, .inr h2⟩
      · -- a looping event is moved, or was unscheduled meanwhile
        obtain ⟨c, hcdef⟩ : ∃ c : Callback, c =
          ⟨evt.handle, evt.type, evt.time, s.sequenceNumber evt.type, true, false⟩ := ⟨_, rfl⟩
        obtain ⟨t, ht⟩ : ∃ t, t = s.advanceLoop.callbackStart c := ⟨_, rfl⟩
        have e : s.advanceLoop = { s with advance := .callback c } := by
          rw [advanceLoop, htop, hcdef]
          dsimp only
          rw [if_pos hdue, if_neg hlive, if_neg honce]
        have hadvance : t.advance = .callback { c with started := true } := by rw [ht]; rfl
        have htinv : Inv t := by
          have := (h.inv.step (.advanceLoop h.loop)).step
            (.callbackStart (c := c) (by rw [e]) (by rw [hcdef]))
          rwa [← ht] at this
        rw [round_of_callback h.loop (by rw [e]) ht] at hinv ⊢
        rw [e] at ht
        have huinv := htinv.path (outsideSteps_path (by rw [hadvance]; nofun) (houtside.during t _ hadvance))
        obtain ⟨hperiods, hle⟩ := during_total (houtside.during t _ hadvance) (by rw [ht]; exact h.periods)
        obtain ⟨-, hunow, hutimer⟩ := after_fields t (outside t).during
        have hlooping := during_looping (houtside.during t _ hadvance) (e := evt) (by rw [ht]; exact hmem)
        generalize after outsideStep t (outside t).during = u at *
        have htotal : t.total = s.total := by rw [ht]; rfl
        have htnow : t.now = s.now := by rw [ht]; rfl
        have hseq : t.sequenceNumber = s.sequenceNumber := by rw [ht]; rfl
        have htimer : t.globalTimer = s.globalTimer := by rw [ht]; rfl
        rw [htotal] at hle
        rw [htotal, htnow, hseq] at hlooping
        rcases hlooping with ⟨humem, huseq⟩ | ⟨hlt, hgone⟩
        · have hresched : 0 < evt.rescheduleTime := by
            have := h.periods evt hmem
            omega
          obtain ⟨hvtimer, hvtotal, hvperiods⟩ := callbackEnd_again
            (c := { c with started := true }) (outside t).newScheduleTime huinv humem (by rw [hcdef]) (by rw [hcdef])
            (by rw [hcdef]) (by rw [huseq, hcdef]) (by rw [hunow, htnow]; exact hnow) hresched
            (fun p hp => houtside.period t _ p hadvance hp) hperiods
          have hvnow := (callbackEnd_fields u { c with started := true } (outside t).newScheduleTime).2.1
          obtain ⟨h1, h2⟩ := Ready.again (s := s) (houtside.between t _ hadvance) hinv
            (callbackEnd_fields _ _ _).1 (by rw [hvtimer, hvnow]) (hvnow.trans (hunow.trans htnow)) hvperiods
            (Nat.lt_of_lt_of_le hvtotal hle)
          exact ⟨h1, .inr h2⟩
        · have hend : u.callbackEnd { c with started := true } (outside t).newScheduleTime =
              { u with advance := .loop } := by
            rw [callbackEnd, if_neg (by rw [hcdef]; nofun), if_pos]
            rw [hcdef]
            exact Nat.ne_of_lt hlt
          rw [hend] at hinv ⊢
          obtain ⟨h1, h2⟩ := Ready.again (s := s) (houtside.between t _ hadvance) hinv rfl (by
              dsimp only
              rw [hutimer, hunow, htimer, htnow, h.timer])
            (hunow.trans htnow) hperiods
            (Nat.lt_of_lt_of_le (Nat.lt_add_of_pos_right hpos) hgone)
          exact ⟨h1, .inr h2⟩
    · have e : s.advanceLoop = { s with advance := .idle } := by
        rw [advanceLoop, htop]
        exact if_neg hdue
      rw [round_of_stay h.loop (by rw [e]; nofun), e]
      refine ⟨rfl, .inl ⟨rfl, fun e he => ?_⟩⟩
      have := hmin e he
      rw [Event.not_before_iff] at this
      rw [h.timer] at hdue
      omega

/-! ## 6. An event whose type was destroyed -/

/-- A due event has a type that was destroyed. -/
structure Stuck (x : Event) (s : CoreTiming) : Prop where
  inv : Inv s
  loop : s.advance = .loop
  timer : s.globalTimer = s.now
  mem : x ∈ s.eventQueue
  due : x.time ≤ s.now
  destroyed : s.expired x.type = true

theorem during_destroyed (has : AllSteps outsideStep Polite s as) (hx : x ∈ s.eventQueue)
    (hdestroyed : s.expired x.type = true) :
    x ∈ (after outsideStep s as).eventQueue ∧ (after outsideStep s as).expired x.type = true := by
  refine has.after (fun t => x ∈ t.eventQueue ∧ t.expired x.type = true) ?_ ⟨hx, hdestroyed⟩
  intro t a ⟨hmem, hdestroyed⟩ ha
  generalize ht' : (t.outsideStep a).2 = t'
  rcases outsideStep_cases ha ht'.symm with ⟨y, hq, -, -, -, he⟩ | ⟨type, hlive, hq, -, he⟩ | ⟨hq, -, he⟩
  · rw [hq, he]
    exact ⟨mem_cons_of_mem y hmem, hdestroyed⟩
  · rw [hq, he]
    refine ⟨mem_filter.mpr ⟨hmem, decide_eq_true fun e => ?_⟩, hdestroyed⟩
    rw [← e, hdestroyed] at hlive
    cases hlive
  · rw [hq]
    exact ⟨hmem, he _ hdestroyed⟩

theorem callbackEnd_keeps (new : Option Int) (hx : x ∈ s.eventQueue) (hne : x.handle ≠ c.handle)
    (htimer : s.globalTimer = s.now) :
    x ∈ (s.callbackEnd c new).eventQueue ∧ (s.callbackEnd c new).globalTimer = s.now := by
  rw [callbackEnd]
  split
  · exact ⟨hx, rfl⟩
  · split
    · exact ⟨hx, htimer⟩
    · split
      · exact ⟨hx, htimer⟩
      · rename_i evt hfind
        have h : evt.handle = c.handle := by simpa using List.find?_some hfind
        exact ⟨mem_map.mpr ⟨x, hx, if_neg (by rwa [h])⟩, rfl⟩

/-- **The loop meets the event again in every round.** -/
theorem Stuck.next (houtside : PoliteOutside outside) (h : Stuck x s) : Stuck x (round outside s) := by
  obtain ⟨path, hpath⟩ := round_path houtside s
  have hinv := h.inv.path hpath
  cases htop : top s.eventQueue with
  | none =>
    have hmem := h.mem
    rw [top_eq_none htop] at hmem
    cases hmem
  | some evt =>
    obtain ⟨hmem, hmin⟩ := top_spec htop
    have hdue : evt.time ≤ s.globalTimer := by
      have hle := hmin x h.mem
      have := h.due
      rw [Event.not_before_iff] at hle
      rw [h.timer]
      omega
    by_cases hdestroyed : s.expired evt.type = true
    · have e : s.advanceLoop = { s with globalTimer := s.now } := by
        rw [advanceLoop, htop]
        dsimp only
        rw [if_pos hdue, if_pos hdestroyed]
      have hstay : ∀ c, s.advanceLoop.advance ≠ .callback c := by
        intro c hc
        rw [e, show ({ s with globalTimer := s.now } : CoreTiming).advance = .loop from h.loop] at hc
        cases hc
      rw [round_of_stay h.loop hstay, e] at hinv ⊢
      exact ⟨hinv, h.loop, rfl, h.mem, h.due, h.destroyed⟩
    · -- another event is taken
      have hother : x ≠ evt := fun e => hdestroyed (by rw [← e]; exact h.destroyed)
      have hhandle : x.handle ≠ evt.handle := fun e =>
        hother (inj_on_of_nodup_map h.inv.handles h.mem hmem e)
      obtain ⟨c, hchandle, hcallback, hxmem, htimer, hnow, hexpired⟩ : ∃ c : Callback, c.handle = evt.handle ∧
          s.advanceLoop.advance = .callback c ∧ x ∈ s.advanceLoop.eventQueue ∧
          s.advanceLoop.globalTimer = s.globalTimer ∧ s.advanceLoop.now = s.now ∧
          s.advanceLoop.expired = s.expired := by
        rw [advanceLoop, htop]
        dsimp only
        rw [if_pos hdue, if_neg hdestroyed]
        split
        · exact ⟨_, rfl, rfl, (mem_erase_of_ne hother).mpr h.mem, rfl, rfl, rfl⟩
        · exact ⟨_, rfl, rfl, h.mem, rfl, rfl, rfl⟩
      obtain ⟨t, ht⟩ : ∃ t, t = s.advanceLoop.callbackStart c := ⟨_, rfl⟩
      have hadvance : t.advance = .callback { c with started := true } := by rw [ht]; rfl
      rw [round_of_callback h.loop hcallback ht] at hinv ⊢
      obtain ⟨humem, hudestroyed⟩ := during_destroyed (houtside.during t _ hadvance) (x := x)
        (by rw [ht]; exact hxmem)
        (by
          rw [ht, show (s.advanceLoop.callbackStart c).expired = s.advanceLoop.expired from rfl, hexpired]
          exact h.destroyed)
      obtain ⟨-, hunow, hutimer⟩ := after_fields t (outside t).during
      have htnow : t.now = s.now := by rw [ht]; exact hnow
      have httimer : t.globalTimer = s.now := by rw [ht, ← h.timer]; exact htimer
      obtain ⟨hvmem, hvtimer⟩ := callbackEnd_keeps
        (c := { c with started := true }) (outside t).newScheduleTime humem (by dsimp only; rwa [hchandle])
        (by rw [hutimer, hunow, httimer, htnow])
      obtain ⟨hvloop, hvnow, hvexpired⟩ := callbackEnd_fields
        (after outsideStep t (outside t).during) { c with started := true } (outside t).newScheduleTime
      obtain ⟨hwq, hwexpired⟩ := between_fields (houtside.between t _ hadvance)
        (s := (after outsideStep t (outside t).during).callbackEnd { c with started := true }
          (outside t).newScheduleTime)
      obtain ⟨hwloop, hwnow, hwtimer⟩ := after_fields
        ((after outsideStep t (outside t).during).callbackEnd { c with started := true }
          (outside t).newScheduleTime) (outside t).between
      refine ⟨hinv, hwloop.trans hvloop, ?_, by rwa [hwq], ?_, hwexpired _ (by rwa [hvexpired])⟩
      · rw [hwtimer, hwnow, hvtimer, hvnow]
      · rw [hwnow, hvnow, hunow, htnow]
        exact h.due

/-! ## 7. When `Advance` ends -/

theorem afterRounds_succ (n : Nat) :
    afterRounds outside s (n + 1) = round outside (afterRounds outside s n) :=
  iterate_succ_apply' _ _ _

theorem afterRounds_idle {n m : Nat} (h : (afterRounds outside s n).advance = .idle) (hle : n ≤ m) :
    afterRounds outside s m = afterRounds outside s n := by
  induction m with
  | zero => rw [Nat.le_zero.mp hle]
  | succ m ih =>
    rcases Nat.eq_or_lt_of_le hle with rfl | hlt
    · rfl
    · rw [afterRounds_succ, ih (Nat.le_of_lt_succ hlt), round, if_neg (by rw [h]; nofun)]

theorem ready_beginAdvance (hinv : Inv s) (hperiods : ∀ e ∈ s.eventQueue, 0 ≤ e.rescheduleTime) :
    Ready s.beginAdvance where
  inv := { hinv with timer := Int.le_refl _, running := fun _ hc => nomatch hc }
  loop := rfl
  timer := rfl
  periods := hperiods

theorem ready_afterRounds (houtside : PoliteOutside outside) (hready : Ready s.beginAdvance) {n : Nat}
    (hclean : ∀ m < n, (afterRounds outside s m).NoneDestroyed) :
    (∃ m ≤ n, (afterRounds outside s m).advance = .idle ∧
      ∀ e ∈ (afterRounds outside s m).eventQueue, (afterRounds outside s m).now < e.time) ∨
    Ready (afterRounds outside s n) ∧ (afterRounds outside s n).total + n ≤ s.beginAdvance.total := by
  induction n with
  | zero => exact .inr ⟨hready, Nat.le_refl _⟩
  | succ n ih =>
    rcases ih fun m hm => hclean m (Nat.lt_succ_of_lt hm) with ⟨m, hm, h⟩ | ⟨h, htotal⟩
    · exact .inl ⟨m, Nat.le_succ_of_le hm, h⟩
    · obtain ⟨hnow, ⟨hidle, hdue⟩ | ⟨hready', hlt⟩⟩ :=
        h.next houtside (hclean n (Nat.lt_succ_self n))
      · refine .inl ⟨n + 1, Nat.le_refl _, ?_⟩
        rw [afterRounds_succ, hnow]
        exact ⟨hidle, hdue⟩
      · rw [afterRounds_succ]
        exact .inr ⟨hready', by omega⟩

theorem stuck_afterRounds (houtside : PoliteOutside outside) {n : Nat}
    (h : Stuck x (afterRounds outside s n)) (m : Nat) : Stuck x (afterRounds outside s (n + m)) := by
  induction m with
  | zero => exact h
  | succ m ih =>
    rw [← Nat.add_assoc, afterRounds_succ]
    exact ih.next houtside

/-- **When `Advance` ends with nothing due**: if and only if in no round a due event has a type that was
destroyed. -/
theorem terminates_iff (houtside : PoliteOutside outside) (hinv : Inv s)
    (hperiods : ∀ e ∈ s.eventQueue, 0 ≤ e.rescheduleTime) :
    Terminates outside s ↔ ∀ n, (afterRounds outside s n).NoneDestroyed := by
  have hready := ready_beginAdvance hinv hperiods
  constructor
  · intro ⟨m, hidle, hdone⟩ n
    induction n using Nat.strongRecOn with
    | ind n ih =>
      rcases ready_afterRounds houtside hready ih with ⟨k, hk, hkidle, hkdone⟩ | ⟨h, -⟩
      · rw [afterRounds_idle hkidle hk]
        intro e he hdue
        exact absurd (hkdone e he) (Int.not_lt.mpr hdue)
      · intro x hx hdue
        by_contra hn
        have hstuck : Stuck x (afterRounds outside s n) :=
          ⟨h.inv, h.loop, h.timer, hx, hdue, Bool.eq_true_of_not_eq_false hn⟩
        -- the loop has ended by one of the later rounds, where the event is still met
        have hlate := (stuck_afterRounds houtside hstuck m).loop
        rw [afterRounds_idle hidle (Nat.le_add_left m n), hidle] at hlate
        cases hlate
  · intro hclean
    rcases ready_afterRounds houtside hready (n := s.beginAdvance.total + 1) fun m _ => hclean m with
      ⟨m, -, h⟩ | ⟨-, htotal⟩
    · exact ⟨m, h⟩
    · omega

/-- Nothing goes on around the callbacks. -/
def quiet : CoreTiming → Outside := fun _ => ⟨[], none, []⟩

theorem quiet_polite : PoliteOutside quiet where
  during _ _ _ := trivial
  period _ _ _ _ h := nomatch h
  between _ _ _ _ ha := absurd ha not_mem_nil

/-- One event that is due. -/
def oneEvent : CoreTiming := scheduleEvent {} 0 7 true

theorem oneEvent_inv : Inv oneEvent := Inv.initial.emplace

theorem terminates_iff_oneEvent :
    Terminates quiet oneEvent ↔ ∀ n, (afterRounds quiet oneEvent n).NoneDestroyed :=
  terminates_iff quiet_polite oneEvent_inv (by decide)

/-- One event that is due, whose type was destroyed. -/
def oneDestroyed : CoreTiming := { oneEvent with expired := fun _ => true }

/-- The event is never taken out: `Advance` does not end. -/
theorem destroyed_type_loops : PoliteOutside quiet ∧ Inv oneDestroyed ∧
    (∀ e ∈ oneDestroyed.eventQueue, 0 ≤ e.rescheduleTime) ∧ ¬Terminates quiet oneDestroyed := by
  have hinv : Inv oneDestroyed := { oneEvent_inv with }
  have hperiods : ∀ e ∈ oneDestroyed.eventQueue, 0 ≤ e.rescheduleTime := by decide
  refine ⟨quiet_polite, hinv, hperiods, ?_⟩
  intro ⟨m, hidle, _⟩
  have hready := ready_beginAdvance hinv hperiods
  have hstuck : Stuck ⟨0, 0, 7, 0, 0⟩ (afterRounds quiet oneDestroyed 0) :=
    ⟨hready.inv, rfl, rfl, mem_cons_self, (by decide), rfl⟩
  have hlate := (stuck_afterRounds quiet_polite hstuck m).loop
  rw [Nat.zero_add, hidle] at hlate
  cases hlate

end CoreTiming

end Yuzu.Core
