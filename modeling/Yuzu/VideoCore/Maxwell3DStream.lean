/-
  File:      Yuzu/VideoCore/Maxwell3DStream.lean
  Subject:   The command stream and the 3D engine behind it. However the stream is cut, and although writes
             wait in the sink or come in batches, the engine ends as if it made each write at once.

  * `Follows`: what the calls that were made have done to the engine.
  * `keeps_dispatchAll`: every function of the pusher keeps it.
  * `stream_drives_engine`: the engine after the stream, by the decoder that takes one word at a time.
-/
import Yuzu.VideoCore.DmaPusherStream
import Yuzu.VideoCore.Maxwell3DSink

namespace Yuzu.VideoCore.Stream

open List Option Dma Maxwell

/-! ## 1. The engine behind the pusher -/

/-- The methods whose words `CallMultiMethod` takes in bulk. -/
def takesBulk (method : Nat) : Bool :=
  decide (Reg.constBufferBuffer ≤ method ∧ method ≤ Reg.constBufferBuffer + 15 ∨ method = Reg.inlineData)

/-- The engine at its start: its registers, what it is given, and its `CallMultiMethod` for macros and for the
methods that take their words in bulk. -/
structure Setting (R : Type*) where
  env : Environment R
  bulk : Nat → List Nat → Nat → Maxwell3D R → Maxwell3D R
  state : State R

variable {R : Type*} (c : Setting R)

/-- `Maxwell3D::CallMultiMethod`. -/
def callMultiMethod (m : Maxwell3D R) (method : Nat) (arguments : List Nat) (methodsPending : Nat) :
    Maxwell3D R :=
  if method ≥ macroRegistersStart ∨ takesBulk method then c.bulk method arguments methodsPending m
  else (arguments.mapIdx fun i argument => ⟨method, argument, decide (methodsPending - i ≤ 1)⟩).foldl
    (Maxwell3D.immediate c.env) m

/-- What the engine does on a call of the pusher. -/
def receive (m : Maxwell3D R) : Event → Maxwell3D R
  | .sink .maxwell3D _ method argument => { m with methodSink := m.methodSink ++ [(method, argument)] }
  | .consume .maxwell3D _ => m.consumeSink c.env
  | .call .maxwell3D _ _ method argument isLastCall =>
    (m.note ⟨method, argument, isLastCall⟩).callMethod c.env ⟨method, argument, isLastCall⟩
  | .multi .maxwell3D _ _ method arguments methodsPending =>
    callMultiMethod c m method arguments methodsPending
  | _ => m

/-- The engine after the calls. -/
def engineAfter (trace : List Event) : Maxwell3D R := trace.foldl (receive c) ⟨c.state, [], []⟩

/-- The engine when it makes writes at once. -/
def madeAtOnce (ws : List Write) : Maxwell3D R := ws.foldl (Maxwell3D.immediate c.env) ⟨c.state, [], []⟩

/-- The writes to engines among those that are seen. -/
def engineWrites (seen : List Seen) : List Write :=
  (seen.filter fun s => nonPullerMethods ≤ s.method).map fun s => ⟨s.method, s.argument, s.last.getD false⟩

/-- Only the 3D engine is bound, and its methods are registers that do not take their words in bulk. -/
def Plain (method argument : Nat) : Prop :=
  (method = 0 → ∀ engine ∈ engineOf argument, engine = .maxwell3D) ∧
    (nonPullerMethods ≤ method → method < macroRegistersStart ∧ takesBulk method = false)

instance {method argument : Nat} : Decidable (Plain method argument) := inferInstanceAs (Decidable (_ ∧ _))

/-- Nothing but the 3D engine is bound. -/
def Only (subchannels : Nat → Option EngineTypes) : Prop :=
  ∀ subchannel engine, subchannels subchannel = some engine → engine = .maxwell3D

/-! ## 2. What the calls have done -/

/-- **The engine follows the pusher**: its sink is the pusher's, and once it is consumed the engine is where
the writes made so far, each at once, would have brought it. -/
structure Follows (p : DmaPusher) : Prop where
  only : Only p.subchannels
  sink_eq : (engineAfter c p.trace).methodSink = p.methodSink .maxwell3D
  waiting : Waiting (engineAfter c p.trace)
  drained : (engineAfter c p.trace).consumeSink c.env = madeAtOnce c (engineWrites (p.trace.flatMap Event.seen))
  silent : ∀ s ∈ p.trace.flatMap Event.seen, s.last = none → isMethodExecutable s.method = false

/-- Between two states of the pusher the engine goes on following it, if all calls are plain. -/
structure Keeps (p p' : DmaPusher) : Prop where
  grows : p.trace ⊆ p'.trace
  follows : (∀ e ∈ p'.trace, ∀ s ∈ e.seen, Plain s.method s.argument) → Follows c p → Follows c p'

variable {c} {p p' p'' : DmaPusher} {m : Maxwell3D R} {e : Event} {w : Write} {method argument subchannel : Nat}
  {arguments words : List Nat} {mask : EngineTypes → Nat → Bool}

theorem Keeps.trans (h : Keeps c p p') (h' : Keeps c p' p'') : Keeps c p p'' :=
  ⟨List.Subset.trans h.grows h'.grows, fun hplain hp =>
    h'.follows hplain (h.follows (fun e he => hplain e (h'.grows he)) hp)⟩

/-- The trace, the sinks and the bound engines are those of the other state. -/
def Same (p p' : DmaPusher) : Prop :=
  p'.trace = p.trace ∧ p'.methodSink = p.methodSink ∧ p'.subchannels = p.subchannels

theorem Same.keeps (h : Same p p') : Keeps c p p' := by
  obtain ⟨htrace, hsink, hsubs⟩ := h
  refine ⟨by rw [htrace]; exact Subset.refl _, fun _ hp => ⟨?_, ?_, ?_, ?_, ?_⟩⟩
  · rw [hsubs]
    exact hp.only
  · rw [htrace, hsink]
    exact hp.sink_eq
  all_goals rw [htrace]
  · exact hp.waiting
  · exact hp.drained
  · exact hp.silent

theorem Keeps.since (h : Keeps c p' p'') (hp : Same p p') : Keeps c p p'' := hp.keeps.trans h

theorem engineWrites_append (seen seen' : List Seen) :
    engineWrites (seen ++ seen') = engineWrites seen ++ engineWrites seen' := by
  rw [engineWrites, filter_append, map_append]
  rfl

/-- **One more call.** -/
theorem Follows.call (h : Follows c p) (htrace : p'.trace = p.trace ++ [e])
    (honly : Only p'.subchannels) (hsink : (receive c (engineAfter c p.trace) e).methodSink = p'.methodSink .maxwell3D)
    (hwaiting : Waiting (receive c (engineAfter c p.trace) e))
    (hdrained : (receive c (engineAfter c p.trace) e).consumeSink c.env =
      (engineWrites e.seen).foldl (Maxwell3D.immediate c.env) ((engineAfter c p.trace).consumeSink c.env))
    (hsilent : ∀ s ∈ e.seen, s.last = none → isMethodExecutable s.method = false) : Follows c p' := by
  have hafter : engineAfter c p'.trace = receive c (engineAfter c p.trace) e := by
    rw [htrace, engineAfter, foldl_append]
    rfl
  have hseen : p'.trace.flatMap Event.seen = p.trace.flatMap Event.seen ++ e.seen := by
    rw [htrace, flatMap_append, flatMap_singleton]
  refine ⟨honly, by rw [hafter, hsink], by rw [hafter]; exact hwaiting, ?_, fun s hs => ?_⟩
  · rw [hafter, hdrained, h.drained, hseen, engineWrites_append, madeAtOnce, madeAtOnce, foldl_append]
  · rw [hseen] at hs
    exact (mem_append.mp hs).elim (h.silent s) (hsilent s)

/-! ## 3. The calls -/

theorem methodSink_immediate (hw : w.method < macroRegistersStart) :
    (m.immediate c.env w).methodSink = m.methodSink := by
  rw [Maxwell3D.immediate, methodSink_callMethod hw]
  split <;> rfl

theorem methodSink_foldl_immediate {ws : List Write} (hws : ∀ w ∈ ws, w.method < macroRegistersStart) :
    (ws.foldl (Maxwell3D.immediate c.env) m).methodSink = m.methodSink := by
  induction ws generalizing m with
  | nil => rfl
  | cons w ws ih =>
    rw [foldl_cons, ih fun v hv => hws v (mem_cons_of_mem _ hv), methodSink_immediate (hws w mem_cons_self)]

theorem waiting_of_nil (h : m.methodSink = []) : Waiting m := fun entry hentry => by
  rw [h] at hentry
  cases hentry

/-- A call of the puller does not reach the engine; it may bind it. -/
theorem keeps_callPullerMethod (hm : method < nonPullerMethods) (count : Nat) :
    Keeps c p (p.callPullerMethod method argument subchannel count) := by
  have hcall {q : DmaPusher} (htrace : q.trace = p.trace ++ [.puller method argument subchannel count])
      (hsink : q.methodSink = p.methodSink) (honly : Plain method argument → Only p.subchannels → Only q.subchannels) : Keeps c p q := by
    refine ⟨by rw [htrace]; exact subset_append_left _ _, fun hplain hp => hp.call htrace ?_ ?_ hp.waiting ?_ ?_⟩
    · refine honly (hplain (.puller method argument subchannel count) ?_ _ mem_cons_self) hp.only
      rw [htrace]
      exact mem_append_right _ mem_cons_self
    · rw [hsink]
      exact hp.sink_eq
    · rw [engineWrites, Event.seen, filter_cons_of_neg (by simpa using hm)]
      rfl
    · rw [Event.seen, forall_mem_singleton]
      rintro ⟨⟩
  unfold DmaPusher.callPullerMethod DmaPusher.processBindMethod
  by_cases hzero : method = 0
  · rw [if_pos hzero]
    cases hof : engineOf argument with
    | none => exact hcall rfl rfl fun _ h => h
    | some bound =>
      refine hcall rfl rfl fun hplain h subchannel' engine hengine => ?_
      change Function.update p.subchannels subchannel (some bound) subchannel' = some engine at hengine
      rw [Function.update_apply] at hengine
      split at hengine
      · rw [← some.inj hengine]
        exact hplain.1 hzero bound hof
      · exact h _ _ hengine
  · rw [if_neg hzero]
    exact hcall rfl rfl fun _ h => h

theorem keeps_pullerLoop (hm : method < nonPullerMethods) (pending : Nat) :
    Keeps c p (p.pullerLoop method subchannel pending arguments) := by
  induction arguments generalizing p pending with
  | nil => exact Same.keeps ⟨rfl, rfl, rfl⟩
  | cons argument arguments ih => exact (keeps_callPullerMethod hm pending).trans (ih (pending - 1))

/-- The sink is consumed before an executed call. -/
theorem Follows.consumeSink (h : Follows c p) : Follows c (p.consumeSink .maxwell3D) ∧
    (p.consumeSink .maxwell3D).methodSink .maxwell3D = [] := by
  unfold DmaPusher.consumeSink
  cases hsink : p.methodSink .maxwell3D with
  | nil => exact ⟨h, hsink⟩
  | cons entry entries =>
    have hnil : ((engineAfter c p.trace).consumeSink c.env).methodSink = [] := methodSink_consumeSink
    have hempty : Function.update p.methodSink .maxwell3D [] .maxwell3D = [] := Function.update_self _ _ _
    exact ⟨h.call (e := .consume .maxwell3D (entry :: entries)) rfl h.only (hnil.trans hempty.symm)
      (waiting_of_nil hnil) (consumeSink_of_nil hnil) fun _ hs => absurd hs not_mem_nil, hempty⟩

theorem subset_consumeSink (engine : EngineTypes) : p.trace ⊆ (p.consumeSink engine).trace := by
  unfold DmaPusher.consumeSink
  split
  · exact Subset.refl _
  · exact subset_append_left _ _

theorem engineWrites_one (hm : nonPullerMethods ≤ method) (last : Option Bool) :
    engineWrites [⟨subchannel, method, argument, last⟩] = [⟨method, argument, last.getD false⟩] := by
  rw [engineWrites, filter_cons_of_pos (by simpa using hm)]
  rfl

/-- **An executed call**, once the sink is empty: the engine makes its writes at once. -/
theorem Follows.executed (h : Follows c p) (hnil : p.methodSink .maxwell3D = []) (htrace : p'.trace = p.trace ++ [e])
    (hsubs : p'.subchannels = p.subchannels) (hsink : p'.methodSink = p.methodSink)
    (hreceive : receive c (engineAfter c p.trace) e =
      (engineWrites e.seen).foldl (Maxwell3D.immediate c.env) (engineAfter c p.trace))
    (hws : ∀ w ∈ engineWrites e.seen, w.method < macroRegistersStart) (hlast : ∀ s ∈ e.seen, s.last ≠ none) :
    Follows c p' := by
  have hempty := h.sink_eq.trans hnil
  have hempty' : (receive c (engineAfter c p.trace) e).methodSink = [] := by
    rw [hreceive, methodSink_foldl_immediate hws, hempty]
  refine h.call htrace (hsubs ▸ h.only) ?_ (waiting_of_nil hempty') ?_ fun s hs hnone => absurd hnone (hlast s hs)
  · rw [hempty', hsink, hnil]
  · rw [consumeSink_of_nil hempty', hreceive, consumeSink_of_nil hempty]

/-- **`CallMethod`**: the write waits, or the sink is consumed and it is executed. -/
theorem keeps_callMethod (hmask : mask .maxwell3D = isMethodExecutable)
    (hcall : p.callMethod mask argument = some p') : Keeps c p p' := by
  unfold DmaPusher.callMethod at hcall
  dsimp only at hcall
  rcases Nat.lt_or_ge p.dmaState.method nonPullerMethods with hm | hm
  · rw [if_pos hm] at hcall
    rw [← some.inj hcall]
    exact keeps_callPullerMethod hm _
  rw [if_neg (Nat.not_lt_of_le hm)] at hcall
  cases hengine : p.subchannels p.dmaState.subchannel with
  | none =>
    rw [hengine] at hcall
    cases hcall
  | some engine =>
    rw [hengine] at hcall
    dsimp only at hcall
    split at hcall
    · rename_i hexec
      obtain rfl := some.inj hcall
      refine ⟨List.Subset.trans (subset_consumeSink engine) (subset_append_left _ _), fun hplain hp => ?_⟩
      obtain rfl := hp.only _ _ hengine
      have hregister := (hplain _ (mem_append_right _ mem_cons_self) _ mem_cons_self).2 hm
      rw [hmask] at hexec
      obtain ⟨h, hnil⟩ := hp.consumeSink
      refine h.executed hnil rfl rfl rfl ?_ ?_ ?_ <;> rw [Event.seen]
      · rw [engineWrites_one hm, foldl_cons, foldl_nil, Maxwell3D.immediate, if_pos hexec]
        rfl
      · rw [engineWrites_one hm, forall_mem_singleton]
        exact hregister.1
      · rw [forall_mem_singleton]
        exact some_ne_none _
    · rename_i hwaits
      obtain rfl := some.inj hcall
      refine ⟨subset_append_left _ _, fun _ hp => ?_⟩
      obtain rfl := hp.only _ _ hengine
      have hn : isMethodExecutable p.dmaState.method = false := by
        rw [← hmask]
        exact Bool.eq_false_iff.mpr hwaits
      obtain ⟨hdrained, hwaiting⟩ := @consumeSink_deferred _ c.env _ hp.waiting
        ⟨p.dmaState.method, argument, false⟩ (lt_of_not_executable hn)
      rw [Maxwell3D.deferred, if_neg (by rw [hn]; exact Bool.false_ne_true)] at hdrained hwaiting
      refine hp.call (e := .sink .maxwell3D p.dmaState.subchannel p.dmaState.method argument) rfl hp.only ?_
        hwaiting ?_ ?_
      · show (engineAfter c p.trace).methodSink ++ _ = _
        rw [hp.sink_eq]
        exact (Function.update_self EngineTypes.maxwell3D _ p.methodSink).symm
      · rw [Event.seen, engineWrites_one hm]
        exact hdrained
      · rw [Event.seen, forall_mem_singleton]
        exact fun _ => hn

/-- The writes of a batch. -/
theorem engineWrites_multi (hm : nonPullerMethods ≤ method) {engine : EngineTypes} {segment pending : Nat}
    (hlen : arguments.length ≤ pending) :
    engineWrites (Event.multi engine segment subchannel method arguments pending).seen =
      arguments.mapIdx fun i argument => ⟨method, argument, decide (pending - i ≤ 1)⟩ := by
  rw [engineWrites, Event.seen, filter_eq_self.mpr]
  · refine ext_getElem (by simp) fun i hi hi' => ?_
    rw [length_mapIdx] at hi'
    simp only [getElem_map, getElem_mapIdx, Option.getD_some, Write.mk.injEq, decide_eq_decide, true_and]
    omega
  · intro s hs
    obtain ⟨i, hi, rfl⟩ := mem_mapIdx.mp hs
    simpa using hm

/-- **`CallMultiMethod`**: the sink is consumed, and the batch is executed. -/
theorem keeps_callMultiMethod (hlen : arguments.length ≤ p.dmaState.methodCount) (hne : arguments ≠ [])
    (hcall : p.callMultiMethod arguments = some p') : Keeps c p p' := by
  unfold DmaPusher.callMultiMethod at hcall
  dsimp only at hcall
  rcases Nat.lt_or_ge p.dmaState.method nonPullerMethods with hm | hm
  · rw [if_pos hm, DmaPusher.pullerCallMultiMethod, if_neg (Nat.not_le_of_lt hm)] at hcall
    rw [← some.inj hcall]
    exact keeps_pullerLoop hm _
  rw [if_neg (Nat.not_lt_of_le hm)] at hcall
  cases hengine : p.subchannels p.dmaState.subchannel with
  | none =>
    rw [hengine] at hcall
    cases hcall
  | some engine =>
    rw [hengine] at hcall
    obtain rfl := some.inj hcall
    refine ⟨List.Subset.trans (subset_consumeSink engine) (subset_append_left _ _), fun hplain hp => ?_⟩
    obtain rfl := hp.only _ _ hengine
    have hregister : p.dmaState.method < macroRegistersStart ∧ takesBulk p.dmaState.method = false := by
      obtain ⟨argument, rest, rfl⟩ := exists_cons_of_ne_nil hne
      have hfirst := hplain _ (mem_append_right _ mem_cons_self)
        ⟨p.dmaState.subchannel, p.dmaState.method, argument, _⟩ (by rw [Event.seen, mapIdx_cons]; exact mem_cons_self)
      exact hfirst.2 hm
    obtain ⟨h, hnil⟩ := hp.consumeSink
    refine h.executed hnil rfl rfl rfl ?_ (fun w hw => ?_) fun s hs => ?_
    · rw [engineWrites_multi hm hlen]
      refine if_neg ?_
      rw [hregister.2]
      exact fun h => h.elim (Nat.not_le_of_lt hregister.1) Bool.false_ne_true
    · rw [engineWrites_multi hm hlen] at hw
      obtain ⟨i, hi, rfl⟩ := mem_mapIdx.mp hw
      exact hregister.1
    · obtain ⟨i, hi, rfl⟩ := mem_mapIdx.mp hs
      exact some_ne_none _

/-! ## 4. The command buffers -/

theorem keeps_processHeader (hmask : mask .maxwell3D = isMethodExecutable) {word : Nat}
    (hrun : p.processHeader mask word = some p') : Keeps c p p' := by
  unfold DmaPusher.processHeader at hrun
  cases hmode : headerMode word <;> simp only [hmode] at hrun
  case inline =>
    split at hrun
    · cases hrun
    · rename_i p1 hcall
      rw [← some.inj hrun]
      exact Keeps.trans ((keeps_callMethod hmask hcall).since ⟨rfl, rfl, rfl⟩) (Same.keeps ⟨rfl, rfl, rfl⟩)
  all_goals
    rw [← some.inj hrun]
    exact Same.keeps ⟨rfl, rfl, rfl⟩

theorem keeps_processData (hmask : mask .maxwell3D = isMethodExecutable) {word : Nat}
    (hrun : p.processData mask word = some p') : Keeps c p p' := by
  unfold DmaPusher.processData at hrun
  dsimp only at hrun
  split at hrun
  · cases hrun
  · rename_i p1 hcall
    rw [← some.inj hrun]
    refine Keeps.trans ((keeps_callMethod hmask hcall).since ⟨rfl, rfl, rfl⟩) (Same.keeps ?_)
    split <;> split <;> exact ⟨rfl, rfl, rfl⟩

theorem keeps_processCommands (hmask : mask .maxwell3D = isMethodExecutable) (words : List Nat) (p : DmaPusher)
    (index : Nat) (hrun : p.processCommands mask index words = some p') : Keeps c p p' := by
  induction hn : words.length using Nat.strongRecOn generalizing words p index with
  | ind n ih =>
    cases words with
    | nil =>
      rw [DmaPusher.processCommands] at hrun
      rw [← some.inj hrun]
      exact Same.keeps ⟨rfl, rfl, rfl⟩
    | cons word words =>
      rw [length_cons] at hn
      rw [DmaPusher.processCommands] at hrun
      by_cases hcount : p.dmaState.methodCount ≠ 0
      · rw [dif_pos hcount] at hrun
        dsimp only at hrun
        split at hrun
        · -- a batch, of one word at least
          generalize hmax : min (index + (p.setWordOffset index).dmaState.methodCount)
            (index + (words.length + 1)) - index = maxWrite at hrun
          have hsame : (p.setWordOffset index).dmaState.methodCount = p.dmaState.methodCount := rfl
          split at hrun
          · cases hrun
          · rename_i p1 hcall
            have hmulti : Keeps c (p.setWordOffset index) p1 := by
              refine keeps_callMultiMethod ?_ ?_ hcall
              · rw [length_take]
                omega
              · rw [Ne, take_eq_nil_iff]
                rintro (hzero | hnil)
                · omega
                · cases hnil
            have hrest := ih _ (by rw [length_drop, length_cons]; omega) _ _ _ hrun rfl
            exact Keeps.trans (hmulti.since ⟨rfl, rfl, rfl⟩) (hrest.since ⟨rfl, rfl, rfl⟩)
        · split at hrun
          · cases hrun
          · rename_i p1 hdata
            exact Keeps.trans ((keeps_processData hmask hdata).since ⟨rfl, rfl, rfl⟩)
              (ih _ (by omega) _ _ _ hrun rfl)
      · rw [dif_neg hcount] at hrun
        split at hrun
        · cases hrun
        · rename_i p1 hheader
          exact (keeps_processHeader hmask hheader).trans (ih _ (by omega) _ _ _ hrun rfl)

theorem keeps_stepAll (hmask : mask .maxwell3D = isMethodExecutable) {pieces : List DmaPusher.Piece}
    (hrun : p.stepAll mask pieces = some p') : Keeps c p p' := by
  induction pieces generalizing p with
  | nil =>
    rw [← some.inj hrun]
    exact Same.keeps ⟨rfl, rfl, rfl⟩
  | cons piece pieces ih =>
    rw [DmaPusher.stepAll] at hrun
    split at hrun
    · cases hrun
    · rename_i p1 hstep
      exact Keeps.trans ((keeps_processCommands hmask _ _ _ hstep).since ⟨rfl, rfl, rfl⟩) (ih hrun)

theorem keeps_dispatchAll (hmask : mask .maxwell3D = isMethodExecutable)
    {dispatches : List (List DmaPusher.Piece)} (hrun : p.dispatchAll mask dispatches = some p') :
    Keeps c p p' := by
  induction dispatches generalizing p with
  | nil =>
    rw [← some.inj hrun]
    exact Same.keeps ⟨rfl, rfl, rfl⟩
  | cons pieces dispatches ih =>
    rw [DmaPusher.dispatchAll] at hrun
    split at hrun
    · cases hrun
    · rename_i p1 hdispatch
      exact Keeps.trans ((keeps_stepAll hmask hdispatch).since ⟨rfl, rfl, rfl⟩) (ih hrun)

/-! ## 5. The stream -/

/-- The writes of the decoder that go to engines. -/
def streamWrites (ws : List MethodWrite) : List Write :=
  (ws.filter fun w => nonPullerMethods ≤ w.method).map fun w => ⟨w.method, w.argument, w.last⟩

variable {seen : List Seen} {ws : List MethodWrite}

theorem plain_of_agrees (h : List.Forall₂ Agrees seen ws) (hplain : ∀ w ∈ ws, Plain w.method w.argument) :
    ∀ s ∈ seen, Plain s.method s.argument := by
  induction h with
  | nil => exact fun s hs => nomatch hs
  | @cons s w seen ws hsw _ ih =>
    intro t ht
    rcases mem_cons.mp ht with rfl | ht
    · rw [hsw.2.1, hsw.2.2.1]
      exact hplain w mem_cons_self
    · exact ih (fun v hv => hplain v (mem_cons_of_mem _ hv)) t ht

/-- The last-call flag of a write that waits does not matter. -/
theorem foldl_engineWrites (h : List.Forall₂ Agrees seen ws)
    (hsilent : ∀ s ∈ seen, s.last = none → isMethodExecutable s.method = false) :
    (engineWrites seen).foldl (Maxwell3D.immediate c.env) m =
      (streamWrites ws).foldl (Maxwell3D.immediate c.env) m := by
  induction h generalizing m with
  | nil => rfl
  | @cons s w seen ws hsw _ ih =>
    obtain ⟨subchannel, method, argument, last⟩ := s
    obtain ⟨-, rfl, rfl, hlast⟩ := hsw
    have ih := fun m => @ih m fun t ht => hsilent t (mem_cons_of_mem _ ht)
    rw [engineWrites, streamWrites] at ih ⊢
    by_cases hm : nonPullerMethods ≤ w.method
    · rw [filter_cons_of_pos (by simpa using hm), filter_cons_of_pos (by simpa using hm), map_cons, map_cons,
        foldl_cons, foldl_cons, ← ih]
      congr 1
      cases last with
      | some b => rw [Option.getD_some, hlast b rfl]
      | none =>
        have hn := hsilent _ mem_cons_self rfl
        rw [Maxwell3D.immediate, Maxwell3D.immediate, if_neg (by simp [hn]), if_neg (by simp [hn]),
          callMethod_of_not_executable hn, callMethod_of_not_executable hn]
    · rw [filter_cons_of_neg (by simpa using hm), filter_cons_of_neg (by simpa using hm)]
      exact ih m

/-- **The stream drives the engine**: from a pusher between commands that has bound nothing but the 3D engine,
for every way in which the stream is cut into command buffers and dispatches, the engine, once its sink is
consumed, is where the writes of the decoder would have brought it one by one, and what was seen at its
executed calls is the same. -/
theorem stream_drives_engine (c : Setting R) (hmask : mask .maxwell3D = isMethodExecutable) (p : DmaPusher)
    (hidle : p.dmaState.methodCount = 0) (htrace : p.trace = []) (hsink : p.methodSink .maxwell3D = [])
    (honly : Only p.subchannels) (dispatches : List (List DmaPusher.Piece))
    (hbound : Bound p.subchannels (Decoder.idle.writes (streamOf dispatches)))
    (hplain : ∀ w ∈ Decoder.idle.writes (streamOf dispatches), Plain w.method w.argument) :
    ∃ p', p.dispatchAll mask dispatches = some p' ∧ (engineAfter c p'.trace).consumeSink c.env =
      madeAtOnce c (streamWrites (Decoder.idle.writes (streamOf dispatches))) := by
  have hsim : Sim { p with dmaState := { p.dmaState with isLastCall := true } } .idle :=
    ⟨hidle, fun _ => rfl, fun h => absurd rfl h, fun h => absurd rfl h, fun h => absurd rfl h,
      fun h => absurd rfl h⟩
  obtain ⟨p', hrun, hmade⟩ := @dispatchAll_spec _ _ mask dispatches hsim hbound
  obtain ⟨events, hevents, hagrees⟩ := hmade.trace
  rw [htrace, nil_append] at hevents
  have hstart : Follows c p := by
    refine ⟨honly, ?_, ?_, ?_, ?_⟩ <;> rw [htrace]
    · exact hsink.symm
    · exact waiting_of_nil rfl
    · rfl
    · exact fun s hs => nomatch hs
  have hseen := plain_of_agrees hagrees hplain
  have hend := (keeps_dispatchAll hmask hrun).follows
    (fun e he s hs => hseen s (mem_flatMap.mpr ⟨e, hevents ▸ he, hs⟩)) hstart
  have hsilent := hend.silent
  refine ⟨p', hrun, hend.drained.trans ?_⟩
  rw [hevents] at hsilent ⊢
  exact foldl_engineWrites hagrees hsilent

/-- The engine behind the stream that is cut after the second of three words. -/
theorem stream_drives_engine_cut : ∃ p', freshPusher.dispatchAll (fun _ => isMethodExecutable) cutCommand = some p' ∧
    (engineAfter ⟨scratchEnvironment, fun _ _ _ m => m, ⟨fun _ => 0, fun _ => 0, fun _ => false, ()⟩⟩
        p'.trace).consumeSink scratchEnvironment =
      madeAtOnce ⟨scratchEnvironment, fun _ _ _ m => m, ⟨fun _ => 0, fun _ => 0, fun _ => false, ()⟩⟩
        (streamWrites (Decoder.idle.writes (streamOf cutCommand))) :=
  stream_drives_engine _ rfl freshPusher rfl rfl rfl (fun _ _ h => nomatch h) cutCommand (by decide +kernel)
    (by decide +kernel)

end Yuzu.VideoCore.Stream
