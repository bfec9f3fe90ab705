/-
  File:      Yuzu/VideoCore/DmaPusherStream.lean
  Subject:   The pusher decodes a command stream as the decoder that takes one word at a time, wherever the
             stream is cut.

  * `callMethod_called`, `callMultiMethod_called`: what one call writes.
  * `processCommands_spec`: a command buffer, from any state in which the decoder is in the same command.
  * `dispatchAll_spec`: all command buffers.
-/
import Mathlib.Data.List.Forall2
import Yuzu.VideoCore.DmaPusher

namespace Yuzu.VideoCore.Dma

open List Option

variable {p p' p'' : DmaPusher} {d : Decoder} {ws ws' : List MethodWrite} {mask : EngineTypes → Nat → Bool}
  {words : List Nat} {subs : Nat → Option EngineTypes}

/-! ## 1. What the calls write -/

/-- A write as a call shows it. An entry of a sink has no last-call indication. -/
structure Seen where
  subchannel : Nat
  method : Nat
  argument : Nat
  last : Option Bool

/-- The writes of a call, in order. The entries of a sink are counted where they are put into it. -/
def Event.seen : Event → List Seen
  | .puller method argument subchannel methodCount =>
    [⟨subchannel, method, argument, some (decide (methodCount ≤ 1))⟩]
  | .sink _ subchannel method argument => [⟨subchannel, method, argument, none⟩]
  | .consume _ _ => []
  | .call _ _ subchannel method argument isLastCall => [⟨subchannel, method, argument, some isLastCall⟩]
  | .multi _ _ subchannel method arguments methodsPending =>
    arguments.mapIdx fun i argument => ⟨subchannel, method, argument,
      some (decide (i + 1 = arguments.length ∧ arguments.length = methodsPending))⟩

/-- The write that is seen is the write of the decoder, with its last-call indication if it has one. -/
def Agrees (seen : Seen) (w : MethodWrite) : Prop :=
  seen.subchannel = w.subchannel ∧ seen.method = w.method ∧ seen.argument = w.argument ∧
    ∀ last ∈ seen.last, last = w.last

/-- The bound subchannels after a write. -/
def bindAfter (subs : Nat → Option EngineTypes) (w : MethodWrite) : Nat → Option EngineTypes :=
  if w.method = 0 then
    match engineOf w.argument with
    | some engine => Function.update subs w.subchannel (some engine)
    | none => subs
  else subs

/-- **The engine methods name bound subchannels.** -/
def Bound (subs : Nat → Option EngineTypes) : List MethodWrite → Prop
  | [] => True
  | w :: ws => (nonPullerMethods ≤ w.method → (subs w.subchannel).isSome) ∧ Bound (bindAfter subs w) ws

theorem bound_append : Bound subs (ws ++ ws') ↔ Bound subs ws ∧ Bound (ws.foldl bindAfter subs) ws' := by
  induction ws generalizing subs with
  | nil => simp [Bound]
  | cons w ws ih => simp only [cons_append, Bound, ih, foldl_cons, and_assoc]

/-- The writes are made between two states of the pusher. -/
structure Made (p p' : DmaPusher) (ws : List MethodWrite) : Prop where
  subchannels_eq : p'.subchannels = ws.foldl bindAfter p.subchannels
  trace : ∃ events, p'.trace = p.trace ++ events ∧ List.Forall₂ Agrees (events.flatMap Event.seen) ws

theorem Made.silent (hsubs : p'.subchannels = p.subchannels) (htrace : p'.trace = p.trace) : Made p p' [] :=
  ⟨hsubs, [], by rw [htrace, append_nil], .nil⟩

theorem Made.trans (h : Made p p' ws) (h' : Made p' p'' ws') : Made p p'' (ws ++ ws') := by
  obtain ⟨es, htrace, hes⟩ := h.trace
  obtain ⟨es', htrace', hes'⟩ := h'.trace
  refine ⟨?_, es ++ es', ?_, ?_⟩
  · rw [h'.subchannels_eq, h.subchannels_eq, foldl_append]
  · rw [htrace', htrace, append_assoc]
  · rw [flatMap_append]
    exact rel_append hes hes'

theorem Made.bound (h : Made p p' ws) (hb : Bound p.subchannels (ws ++ ws')) : Bound p'.subchannels ws' := by
  rw [h.subchannels_eq]
  exact (bound_append.mp hb).2

/-- The writes of calls, which leave the state of the command. -/
structure Called (p p' : DmaPusher) (ws : List MethodWrite) : Prop extends Made p p' ws where
  state_eq : p'.dmaState = p.dmaState
  once_eq : p'.dmaIncrementOnce = p.dmaIncrementOnce

theorem Called.refl (p : DmaPusher) : Called p p [] := ⟨.silent rfl rfl, rfl, rfl⟩

theorem Called.trans (h : Called p p' ws) (h' : Called p' p'' ws') : Called p p'' (ws ++ ws') :=
  ⟨h.toMade.trans h'.toMade, h'.state_eq.trans h.state_eq, h'.once_eq.trans h.once_eq⟩

/-! ## 2. Calls -/

theorem consumeSink_called (engine : EngineTypes) : Called p (p.consumeSink engine) [] := by
  unfold DmaPusher.consumeSink
  cases p.methodSink engine with
  | nil => exact .refl p
  | cons e es => exact ⟨⟨rfl, _, rfl, .nil⟩, rfl, rfl⟩

theorem callPullerMethod_called (method argument subchannel methodCount : Nat) :
    Called p (p.callPullerMethod method argument subchannel methodCount)
      [⟨subchannel, method, argument, decide (methodCount ≤ 1)⟩] := by
  have hseen : List.Forall₂ Agrees ([Event.puller method argument subchannel methodCount].flatMap Event.seen)
      [⟨subchannel, method, argument, decide (methodCount ≤ 1)⟩] :=
    .cons ⟨rfl, rfl, rfl, fun _ h => (some.inj h).symm⟩ .nil
  unfold DmaPusher.callPullerMethod DmaPusher.processBindMethod
  by_cases hm : method = 0
  · rw [if_pos hm]
    cases he : engineOf argument with
    | none => exact ⟨⟨by simp [bindAfter, hm, he, DmaPusher.log], _, rfl, hseen⟩, rfl, rfl⟩
    | some engine => exact ⟨⟨by simp [bindAfter, hm, he, DmaPusher.log], _, rfl, hseen⟩, rfl, rfl⟩
  · rw [if_neg hm]
    exact ⟨⟨by simp [bindAfter, hm, DmaPusher.log], _, rfl, hseen⟩, rfl, rfl⟩

/-- The writes of a batch, when so many data words remain. -/
def batch (subchannel method : Nat) : Nat → List Nat → List MethodWrite
  | _, [] => []
  | remaining, argument :: arguments =>
    ⟨subchannel, method, argument, decide (remaining = 1)⟩ :: batch subchannel method (remaining - 1) arguments

theorem pullerLoop_called (method subchannel pending : Nat) (arguments : List Nat)
    (hlen : arguments.length ≤ pending) :
    Called p (p.pullerLoop method subchannel pending arguments) (batch subchannel method pending arguments) := by
  induction arguments generalizing p pending with
  | nil => exact .refl p
  | cons argument arguments ih =>
    rw [length_cons] at hlen
    have hfirst := callPullerMethod_called (p := p) method argument subchannel pending
    have hlast : decide (pending ≤ 1) = decide (pending = 1) := by
      rw [decide_eq_decide]
      omega
    rw [hlast] at hfirst
    exact hfirst.trans (ih (pending - 1) (by omega))

theorem batch_eq_mapIdx (subchannel method remaining : Nat) (arguments : List Nat) :
    batch subchannel method remaining arguments =
      arguments.mapIdx fun i argument => ⟨subchannel, method, argument, decide (remaining - i = 1)⟩ := by
  induction arguments generalizing remaining with
  | nil => rfl
  | cons argument arguments ih =>
    rw [batch, ih, mapIdx_cons]
    simp only [Nat.sub_zero, Nat.sub_sub, Nat.add_comm 1]

/-- **A batch given to an engine**: the last word is indicated where the batch ends the command. -/
theorem seen_multi (engine : EngineTypes) (segment subchannel method pending : Nat) (arguments : List Nat)
    (hlen : arguments.length ≤ pending) :
    List.Forall₂ Agrees ((Event.multi engine segment subchannel method arguments pending).seen)
      (batch subchannel method pending arguments) := by
  rw [batch_eq_mapIdx, Event.seen, forall₂_iff_get]
  refine ⟨by rw [length_mapIdx, length_mapIdx], fun i hi hi' => ?_⟩
  rw [length_mapIdx] at hi
  simp only [get_eq_getElem, getElem_mapIdx]
  refine ⟨rfl, rfl, rfl, fun last hlast => ?_⟩
  rw [← some.inj hlast, decide_eq_decide]
  omega

/-- **`CallMethod`** makes one write. -/
theorem callMethod_called (argument : Nat) {last : Bool} (hlast : p.dmaState.isLastCall = last)
    (hcount : decide (p.dmaState.methodCount ≤ 1) = last)
    (hb : nonPullerMethods ≤ p.dmaState.method → (p.subchannels p.dmaState.subchannel).isSome) :
    ∃ p', p.callMethod mask argument = some p' ∧
      Called p p' [⟨p.dmaState.subchannel, p.dmaState.method, argument, last⟩] := by
  unfold DmaPusher.callMethod
  rcases Nat.lt_or_ge p.dmaState.method nonPullerMethods with hm | hm
  · rw [if_pos hm]
    exact ⟨_, rfl, hcount ▸ callPullerMethod_called _ _ _ _⟩
  · obtain ⟨engine, hengine⟩ := isSome_iff_exists.mp (hb hm)
    have hnobind : p.dmaState.method ≠ 0 := Nat.ne_of_gt (Nat.lt_of_lt_of_le (by decide) hm)
    have hsubs : ∀ subs, [(⟨p.dmaState.subchannel, p.dmaState.method, argument, last⟩ : MethodWrite)].foldl
        bindAfter subs = subs := fun subs => if_neg hnobind
    simp only [if_neg (Nat.not_lt_of_le hm), hengine]
    split
    · have hsink := consumeSink_called (p := p) engine
      refine ⟨_, rfl, hsink.trans ⟨⟨(hsubs _).symm, [_], rfl, .cons ?_ .nil⟩, rfl, rfl⟩⟩
      exact ⟨rfl, rfl, rfl, fun _ h => (some.inj h).symm.trans hlast⟩
    · exact ⟨_, rfl, ⟨(hsubs _).symm, [_], rfl, .cons ⟨rfl, rfl, rfl, fun _ h => nomatch h⟩ .nil⟩, rfl, rfl⟩

theorem foldl_bindAfter_batch {method : Nat} (hm : method ≠ 0) (subchannel remaining : Nat) (arguments : List Nat) :
    (batch subchannel method remaining arguments).foldl bindAfter subs = subs := by
  induction arguments generalizing remaining with
  | nil => rfl
  | cons argument arguments ih =>
    rw [batch, foldl_cons, bindAfter, if_neg hm]
    exact ih _

/-- **`CallMultiMethod`** makes the writes of a batch. -/
theorem callMultiMethod_called (arguments : List Nat) (hlen : arguments.length ≤ p.dmaState.methodCount)
    (hb : nonPullerMethods ≤ p.dmaState.method → (p.subchannels p.dmaState.subchannel).isSome) :
    ∃ p', p.callMultiMethod arguments = some p' ∧
      Called p p' (batch p.dmaState.subchannel p.dmaState.method p.dmaState.methodCount arguments) := by
  unfold DmaPusher.callMultiMethod
  rcases Nat.lt_or_ge p.dmaState.method nonPullerMethods with hm | hm
  · rw [if_pos hm, DmaPusher.pullerCallMultiMethod, if_neg (Nat.not_le_of_lt hm)]
    exact ⟨_, rfl, pullerLoop_called _ _ _ _ hlen⟩
  · obtain ⟨engine, hengine⟩ := isSome_iff_exists.mp (hb hm)
    have hnobind : p.dmaState.method ≠ 0 := Nat.ne_of_gt (Nat.lt_of_lt_of_le (by decide) hm)
    simp only [if_neg (Nat.not_lt_of_le hm), hengine]
    have hsink := consumeSink_called (p := p) engine
    refine ⟨_, rfl, hsink.trans ⟨⟨(foldl_bindAfter_batch hnobind _ _ _).symm, [_], rfl, ?_⟩, rfl, rfl⟩⟩
    rw [flatMap_singleton]
    exact seen_multi _ _ _ _ _ _ hlen

/-! ## 3. The decoder -/

theorem writes_cons (d : Decoder) (w : Nat) (words : List Nat) :
    d.writes (w :: words) = (d.word w).1.toList ++ (d.word w).2.writes words := by
  simp only [Decoder.writes, replies, filterMap_cons, id_eq]
  cases (d.word w).1 <;> rfl

theorem writes_append (d : Decoder) (words words' : List Nat) :
    d.writes (words ++ words') = d.writes words ++ (after Decoder.word d words).writes words' := by
  induction words generalizing d with
  | nil => rfl
  | cons w words ih => rw [cons_append, writes_cons, writes_cons, ih, append_assoc, after_cons]

/-- **The data words of a command that does not advance** are a batch. -/
theorem writes_never (hd : d.advance = .never) (hlen : words.length ≤ d.remaining) :
    d.writes words = batch d.subchannel d.method d.remaining words ∧
      after Decoder.word d words = { d with remaining := d.remaining - words.length } := by
  induction words generalizing d with
  | nil => exact ⟨rfl, rfl⟩
  | cons w words ih =>
    rw [length_cons] at hlen
    have hword : d.word w = (some ⟨d.subchannel, d.method, w, decide (d.remaining = 1)⟩,
        { d with remaining := d.remaining - 1 }) := by
      rw [Decoder.word, if_neg (by omega), Decoder.next, hd]
    obtain ⟨hwrites, hafter⟩ := ih (d := { d with remaining := d.remaining - 1 }) hd
      (by show words.length ≤ d.remaining - 1; omega)
    rw [writes_cons, after_cons, hword]
    refine ⟨?_, ?_⟩
    · rw [hwrites]
      rfl
    · rw [hafter, length_cons, Nat.add_comm, Nat.sub_add_eq]

/-! ## 4. The pusher in the command of the decoder -/

/-- **The pusher is in the command of the decoder.** -/
structure Sim (p : DmaPusher) (d : Decoder) : Prop where
  count_eq : p.dmaState.methodCount = d.remaining
  last_eq : d.remaining = 0 → p.dmaState.isLastCall = true
  method_eq : d.remaining ≠ 0 → p.dmaState.method = d.method
  subchannel_eq : d.remaining ≠ 0 → p.dmaState.subchannel = d.subchannel
  advance_eq : d.remaining ≠ 0 → p.dmaState.nonIncrementing = decide (d.advance = .never)
  once_eq : d.remaining ≠ 0 → d.advance ≠ .never → p.dmaIncrementOnce = decide (d.advance = .once)

theorem sim_start {word : Nat} {nonIncrementing incrementOnce : Bool} {advance : Advance}
    (hlast : p.dmaState.isLastCall = true) (hn : nonIncrementing = decide (advance = .never))
    (ho : incrementOnce = decide (advance = .once)) :
    Sim ((p.setState word).setFlags nonIncrementing incrementOnce) (.start word advance) :=
  ⟨rfl, fun _ => hlast, fun _ => rfl, fun _ => rfl, fun _ => hn, fun _ _ => ho⟩

/-- **The first word of a command.** -/
theorem processHeader_spec (h : Sim p d) (hzero : d.remaining = 0) (w : Nat)
    (hb : Bound p.subchannels (d.word w).1.toList) :
    ∃ p', p.processHeader mask w = some p' ∧ Sim p' (d.word w).2 ∧ Made p p' (d.word w).1.toList := by
  have hlast := h.last_eq hzero
  have hcount : p.dmaState.methodCount = 0 := h.count_eq.trans hzero
  unfold DmaPusher.processHeader
  rw [Decoder.word, if_pos hzero] at hb ⊢
  cases hmode : headerMode w <;> simp only [hmode] at hb ⊢
  case increasing => exact ⟨_, rfl, sim_start hlast rfl rfl, .silent rfl rfl⟩
  case nonIncreasing => exact ⟨_, rfl, sim_start hlast rfl rfl, .silent rfl rfl⟩
  case increaseOnce => exact ⟨_, rfl, sim_start hlast rfl rfl, .silent rfl rfl⟩
  case inline =>
    obtain ⟨p', hcall, hcalled⟩ := @callMethod_called { p with dmaState := { p.dmaState with
        method := headerMethod w, subchannel := headerSubchannel w,
        dmaWordOffset := (2 ^ 64 - p.dmaState.dmaGet % 2 ^ 64) % 2 ^ 64 } }
        mask (headerCount w) true hlast
        (decide_eq_true (by show p.dmaState.methodCount ≤ 1; omega)) hb.1
    rw [hcall]
    refine ⟨_, rfl, ⟨?_, fun _ => ?_, fun hne => absurd hzero hne, fun hne => absurd hzero hne,
      fun hne => absurd hzero hne, fun hne => absurd hzero hne⟩, ⟨hcalled.subchannels_eq, hcalled.trace⟩⟩
    · show p'.dmaState.methodCount = d.remaining
      rw [hcalled.state_eq]
      exact h.count_eq
    · show p'.dmaState.isLastCall = true
      rw [hcalled.state_eq]
      exact hlast
  all_goals exact ⟨p, rfl, h, .silent rfl rfl⟩

/-- **A data word by itself.** -/
theorem processData_spec (h : Sim p d) (hpos : d.remaining ≠ 0) (hn : d.advance ≠ .never) (w : Nat)
    (hb : Bound p.subchannels (d.word w).1.toList) :
    ∃ p', p.processData mask w = some p' ∧ Sim p' (d.word w).2 ∧ Made p p' (d.word w).1.toList := by
  have hcount := h.count_eq
  have hword : d.word w = (some ⟨d.subchannel, d.method, w, decide (d.remaining = 1)⟩, d.next) := if_neg hpos
  rw [hword] at hb ⊢
  have hle : decide (p.dmaState.methodCount ≤ 1) = decide (d.remaining = 1) := by
    rw [decide_eq_decide]
    omega
  obtain ⟨p', hcall, hcalled⟩ := @callMethod_called
      { p with dmaState := { p.dmaState with isLastCall := decide (p.dmaState.methodCount ≤ 1) } }
      mask w _ hle hle (by
      show nonPullerMethods ≤ p.dmaState.method → (p.subchannels p.dmaState.subchannel).isSome
      rw [h.method_eq hpos, h.subchannel_eq hpos]
      exact hb.1)
  have hmade : Made p p' [⟨d.subchannel, d.method, w, decide (d.remaining = 1)⟩] := by
    rw [← h.method_eq hpos, ← h.subchannel_eq hpos]
    exact ⟨hcalled.subchannels_eq, hcalled.trace⟩
  have hstate := hcalled.state_eq
  have honce : p'.dmaIncrementOnce = decide (d.advance = .once) :=
    hcalled.once_eq.trans (h.once_eq hpos hn)
  have hnon : p'.dmaState.nonIncrementing = false := by
    rw [hstate]
    exact (h.advance_eq hpos).trans (decide_eq_false hn)
  have hcount' : p'.dmaState.methodCount - 1 = d.remaining - 1 := by
    rw [hstate]
    exact congrArg (· - 1) hcount
  have hlast' : d.remaining - 1 = 0 → p'.dmaState.isLastCall = true := by
    intro hone
    rw [hstate]
    exact decide_eq_true (by omega)
  have hmethod' : p'.dmaState.method + 1 = d.method + 1 := by
    rw [hstate]
    exact congrArg (· + 1) (h.method_eq hpos)
  have hsub' : p'.dmaState.subchannel = d.subchannel := by
    rw [hstate]
    exact h.subchannel_eq hpos
  simp only [DmaPusher.processData, hcall, hnon, if_true]
  cases hadv : d.advance with
  | never => exact absurd hadv hn
  | always =>
    rw [hadv] at honce
    simp only [honce, reduceCtorEq, decide_false, Bool.false_eq_true, if_false]
    refine ⟨_, rfl, ?_, ⟨hmade.subchannels_eq, hmade.trace⟩⟩
    rw [Decoder.next, hadv]
    exact ⟨hcount', hlast', fun _ => hmethod', fun _ => hsub', fun _ => rfl, fun _ _ => rfl⟩
  | once =>
    rw [hadv] at honce
    simp only [honce, decide_true, if_true]
    refine ⟨_, rfl, ?_, ⟨hmade.subchannels_eq, hmade.trace⟩⟩
    rw [Decoder.next, hadv]
    exact ⟨hcount', hlast', fun _ => hmethod', fun _ => hsub', fun _ => rfl, fun _ hne => absurd rfl hne⟩

/-- **A batch** of data words. -/
theorem processBatch_spec (h : Sim p d) (hpos : d.remaining ≠ 0) (hn : d.advance = .never) (index : Nat)
    (hne : words ≠ []) (hlen : words.length ≤ d.remaining) (hb : Bound p.subchannels (d.writes words)) :
    ∃ p', (p.setWordOffset index).callMultiMethod words = some p' ∧
      Sim { p' with dmaState := { p'.dmaState with
        methodCount := p'.dmaState.methodCount - words.length, isLastCall := true } }
          (after Decoder.word d words) ∧
      Made p p' (d.writes words) := by
  have hcount := h.count_eq
  obtain ⟨hwrites, hafter⟩ := writes_never hn hlen
  have hbound : nonPullerMethods ≤ p.dmaState.method → (p.subchannels p.dmaState.subchannel).isSome := by
    rw [h.method_eq hpos, h.subchannel_eq hpos]
    obtain ⟨w, rest, rfl⟩ := exists_cons_of_ne_nil hne
    rw [hwrites] at hb
    exact hb.1
  obtain ⟨p', hcall, hcalled⟩ := callMultiMethod_called (p := p.setWordOffset index) words
    (by show words.length ≤ p.dmaState.methodCount; omega) hbound
  have hstate := hcalled.state_eq
  refine ⟨p', hcall, ?_, ?_⟩
  · rw [hafter]
    refine ⟨?_, fun _ => rfl, fun _ => ?_, fun _ => ?_, fun _ => ?_, fun _ hne => absurd hn hne⟩
    · show p'.dmaState.methodCount - words.length = d.remaining - words.length
      rw [hstate]
      exact congrArg (· - words.length) hcount
    · show p'.dmaState.method = d.method
      rw [hstate]
      exact h.method_eq hpos
    · show p'.dmaState.subchannel = d.subchannel
      rw [hstate]
      exact h.subchannel_eq hpos
    · show p'.dmaState.nonIncrementing = decide (d.advance = .never)
      rw [hstate]
      exact h.advance_eq hpos
  · rw [hwrites, ← h.method_eq hpos, ← h.subchannel_eq hpos, ← hcount]
    exact ⟨hcalled.subchannels_eq, hcalled.trace⟩

/-! ## 5. Command buffers -/

/-- **A command buffer** is decoded from wherever the decoder stands. -/
theorem processCommands_spec (words : List Nat) (p : DmaPusher) (d : Decoder) (index : Nat) (h : Sim p d)
    (hb : Bound p.subchannels (d.writes words)) :
    ∃ p', p.processCommands mask index words = some p' ∧ Sim p' (after Decoder.word d words) ∧
      Made p p' (d.writes words) := by
  induction hlen : words.length using Nat.strongRecOn generalizing words p d index with
  | ind n ih =>
    cases words with
    | nil => exact ⟨p, by rw [DmaPusher.processCommands], h, .silent rfl rfl⟩
    | cons w words =>
      rw [DmaPusher.processCommands]
      have hwrites := writes_cons d w words
      rw [length_cons] at hlen
      by_cases hzero : d.remaining = 0
      · rw [dif_neg (by rw [h.count_eq]; exact not_not_intro hzero)]
        rw [hwrites] at hb
        obtain ⟨p1, hrun, hsim, hmade⟩ := @processHeader_spec _ _ mask h hzero w (bound_append.mp hb).1
        obtain ⟨p2, hrest, hsim', hmade'⟩ := ih words.length (by omega) words p1 _ (index + 1) hsim
          (hmade.bound hb) rfl
        rw [hrun, hwrites, after_cons]
        exact ⟨p2, hrest, hsim', hmade.trans hmade'⟩
      · rw [dif_pos (by rw [h.count_eq]; exact hzero)]
        have hflag : (p.setWordOffset index).dmaState.nonIncrementing = decide (d.advance = .never) :=
          h.advance_eq hzero
        have hcount : (p.setWordOffset index).dmaState.methodCount = d.remaining := h.count_eq
        simp only [hflag, hcount]
        by_cases hn : d.advance = .never
        · -- the batch ends with the command or with the buffer
          rw [if_pos (decide_eq_true hn)]
          generalize hmax : min (index + d.remaining) (index + (words.length + 1)) - index = maxWrite
          have htake : ((w :: words).take maxWrite).length = maxWrite := by
            rw [length_take, length_cons]
            omega
          have hne : (w :: words).take maxWrite ≠ [] := by
            intro hnil
            rw [hnil, length_nil] at htake
            omega
          have hsplit := writes_append d ((w :: words).take maxWrite) ((w :: words).drop maxWrite)
          have hafter := @after_append _ _ _ Decoder.word d ((w :: words).take maxWrite)
              ((w :: words).drop maxWrite)
          rw [take_append_drop] at hsplit hafter
          rw [hsplit] at hb
          obtain ⟨p1, hrun, hsim, hmade⟩ := processBatch_spec h hzero hn index hne
            (by rw [htake]; omega) (bound_append.mp hb).1
          rw [htake] at hsim
          obtain ⟨p2, hrest, hsim', hmade'⟩ := ih _ (by rw [length_drop, length_cons]; omega)
            ((w :: words).drop maxWrite) _ _ (index + maxWrite) hsim (hmade.bound hb) rfl
          rw [hrun, hsplit, hafter]
          exact ⟨p2, hrest, hsim', hmade.trans ⟨hmade'.subchannels_eq, hmade'.trace⟩⟩
        · rw [if_neg (by rw [decide_eq_true_eq]; exact hn)]
          rw [hwrites] at hb
          obtain ⟨p1, hrun, hsim, hmade⟩ := @processData_spec (p.setWordOffset index) _ mask
              ⟨h.count_eq, h.last_eq, h.method_eq, h.subchannel_eq, h.advance_eq, h.once_eq⟩
              hzero hn w (bound_append.mp hb).1
          have hmade1 : Made p p1 (d.word w).1.toList := ⟨hmade.subchannels_eq, hmade.trace⟩
          obtain ⟨p2, hrest, hsim', hmade'⟩ := ih words.length (by omega) words p1 _ (index + 1) hsim
            (hmade1.bound hb) rfl
          rw [hrun, hwrites, after_cons]
          exact ⟨p2, hrest, hsim', hmade1.trans hmade'⟩

/-- The words of command buffers. -/
def wordsOf (pieces : List DmaPusher.Piece) : List Nat := pieces.flatMap DmaPusher.Piece.words

theorem stepAll_spec (pieces : List DmaPusher.Piece) (h : Sim p d)
    (hb : Bound p.subchannels (d.writes (wordsOf pieces))) :
    ∃ p', p.stepAll mask pieces = some p' ∧ Sim p' (after Decoder.word d (wordsOf pieces)) ∧
      Made p p' (d.writes (wordsOf pieces)) := by
  induction pieces generalizing p d with
  | nil => exact ⟨p, rfl, h, .silent rfl rfl⟩
  | cons piece pieces ih =>
    have hwords : wordsOf (piece :: pieces) = piece.words ++ wordsOf pieces := flatMap_cons
    rw [hwords, writes_append] at hb
    rw [hwords, writes_append, after_append]
    obtain ⟨p1, hrun, hsim, hmade⟩ := @processCommands_spec mask piece.words
        { p with dmaState := { p.dmaState with dmaGet := piece.address.getD p.dmaState.dmaGet } }
        d 0 ⟨h.count_eq, h.last_eq, h.method_eq, h.subchannel_eq, h.advance_eq, h.once_eq⟩
        (bound_append.mp hb).1
    have hmade1 : Made p p1 (d.writes piece.words) := ⟨hmade.subchannels_eq, hmade.trace⟩
    obtain ⟨p2, hrest, hsim', hmade'⟩ := ih hsim (hmade1.bound hb)
    refine ⟨p2, ?_, hsim', hmade1.trans hmade'⟩
    rw [DmaPusher.stepAll, DmaPusher.step, hrun]
    exact hrest

/-- The words of all dispatches. -/
def streamOf (dispatches : List (List DmaPusher.Piece)) : List Nat := dispatches.flatMap wordsOf

/-- **All dispatches.** A dispatch sets the last-call flag, also in the middle of a command. -/
theorem dispatchAll_spec (dispatches : List (List DmaPusher.Piece))
    (h : Sim { p with dmaState := { p.dmaState with isLastCall := true } } d)
    (hb : Bound p.subchannels (d.writes (streamOf dispatches))) :
    ∃ p', p.dispatchAll mask dispatches = some p' ∧ Made p p' (d.writes (streamOf dispatches)) := by
  induction dispatches generalizing p d with
  | nil => exact ⟨p, rfl, .silent rfl rfl⟩
  | cons pieces dispatches ih =>
    have hwords : streamOf (pieces :: dispatches) = wordsOf pieces ++ streamOf dispatches := flatMap_cons
    rw [hwords, writes_append] at hb
    rw [hwords, writes_append]
    obtain ⟨p1, hrun, hsim, hmade⟩ := @stepAll_spec _ _ mask pieces h (bound_append.mp hb).1
    have hmade1 : Made p p1 (d.writes (wordsOf pieces)) := ⟨hmade.subchannels_eq, hmade.trace⟩
    obtain ⟨p2, hrest, hmade'⟩ := ih (p := p1)
      ⟨hsim.count_eq, fun _ => rfl, hsim.method_eq, hsim.subchannel_eq, hsim.advance_eq, hsim.once_eq⟩
      (hmade1.bound hb)
    refine ⟨p2, ?_, hmade1.trans hmade'⟩
    rw [DmaPusher.dispatchAll, DmaPusher.dispatchCalls, hrun]
    exact hrest

/-- **The command stream decodes the same however it is cut**: from a pusher between commands, the calls
make the writes of the decoder on all words, in order, and indicate the last one of each command. -/
theorem dispatchAll_decodes (mask : EngineTypes → Nat → Bool) (p : DmaPusher)
    (hidle : p.dmaState.methodCount = 0) (dispatches : List (List DmaPusher.Piece))
    (hbound : Bound p.subchannels (Decoder.idle.writes (streamOf dispatches))) :
    ∃ p' events, p.dispatchAll mask dispatches = some p' ∧ p'.trace = p.trace ++ events ∧
      List.Forall₂ Agrees (events.flatMap Event.seen) (Decoder.idle.writes (streamOf dispatches)) := by
  have hsim : Sim { p with dmaState := { p.dmaState with isLastCall := true } } .idle :=
    ⟨hidle, fun _ => rfl, fun h => absurd rfl h, fun h => absurd rfl h, fun h => absurd rfl h,
      fun h => absurd rfl h⟩
  obtain ⟨p', hrun, hmade⟩ := @dispatchAll_spec _ _ mask dispatches hsim hbound
  obtain ⟨events, htrace, hevents⟩ := hmade.trace
  exact ⟨p', events, hrun, htrace, hevents⟩

instance decidableBound : (subs : Nat → Option EngineTypes) → (ws : List MethodWrite) → Decidable (Bound subs ws)
  | _, [] => isTrue trivial
  | subs, w :: ws =>
    have := decidableBound (bindAfter subs w) ws
    inferInstanceAs (Decidable ((nonPullerMethods ≤ w.method → (subs w.subchannel).isSome) ∧
      Bound (bindAfter subs w) ws))

/-- A pusher as it is made. -/
def freshPusher : DmaPusher :=
  ⟨⟨0, 0, 0, 0, 0, false, false⟩, false, fun _ => none, fun _ => 0, fun _ => [], []⟩

/-- A command that binds subchannel 1, and one of three words that is cut after its second. -/
def cutCommand : List (List DmaPusher.Piece) :=
  [[⟨some 0x1000, [0x20012000, 0xB197, 0x60032100, 7, 8]⟩, ⟨none, [9, 0x80052200]⟩]]

theorem dispatchAll_decodes_cutCommand : ∃ p' events,
    freshPusher.dispatchAll (fun _ method => decide (method = 0x100)) cutCommand = some p' ∧
      p'.trace = [] ++ events ∧
      List.Forall₂ Agrees (events.flatMap Event.seen) (Decoder.idle.writes (streamOf cutCommand)) :=
  dispatchAll_decodes _ freshPusher rfl cutCommand (by decide +kernel)

example : Decoder.idle.writes (streamOf cutCommand) =
    [⟨1, 0, 0xB197, true⟩, ⟨1, 0x100, 7, false⟩, ⟨1, 0x100, 8, false⟩, ⟨1, 0x100, 9, true⟩, ⟨1, 0x200, 5, true⟩] := by
  decide +kernel

end Yuzu.VideoCore.Dma
