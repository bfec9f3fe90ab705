/-
  File:      Yuzu/VideoCore/Maxwell3DSink.lean
  Subject:   Register writes that wait in the sink of `Maxwell3D` cannot be told from immediate ones.

  * `methodActions_of_not_executable`: the list of executable methods covers both action switches.
  * `consumeSinkImpl_eq`: the three loops of the sink make each write as `CallMethod` would.
  * `consumeSink_deferred`: one write, and by induction a run.
-/
import Yuzu.VideoCore.Maxwell3D

namespace Yuzu.VideoCore.Maxwell

open List

variable {R : Type*} {env : Environment R} {m : Maxwell3D R} {s : State R} {tables : List (Nat → Nat)}
  {method argument value : Nat} {sink : List (Nat × Nat)} {entry : Nat × Nat}

/-! ## 1. Methods that wait -/

theorem lt_of_not_executable (h : isMethodExecutable method = false) : method < macroRegistersStart := by
  unfold isMethodExecutable at h
  split at h
  · cases h
  · omega

theorem mem_constBuffer : ∀ i < 16, Reg.constBufferBuffer + i ∈ executableMethods := by
  decide

/-- **No action is missed**: a method that is not executable has none. -/
theorem methodActions_of_not_executable (h : isMethodExecutable method = false) (regs : Nat → Nat)
    (isLastCall : Bool) : methodActions regs method argument isLastCall = [] := by
  have hlt := lt_of_not_executable h
  rw [isMethodExecutable, if_neg (Nat.not_le_of_lt hlt), decide_eq_false_iff_not] at h
  have hcb : ¬(Reg.constBufferBuffer ≤ method ∧ method ≤ Reg.constBufferBuffer + 15) := by
    rintro ⟨hge, hle⟩
    obtain ⟨i, rfl⟩ := Nat.exists_eq_add_of_le hge
    exact h (mem_constBuffer i (by omega))
  simp only [executableMethods, mem_cons, not_mem_nil, or_false, not_or] at h
  simp only [methodActions, drawActions, h, hcb, or_self, if_false]

theorem ne_shadowRamControl (h : isMethodExecutable method = false) : method ≠ Reg.shadowRamControl := by
  rintro rfl
  exact absurd h (by decide)

/-! ## 2. The loops of the sink -/

/-- A write to a register, without its actions. -/
def State.writeRegister (tables : List (Nat → Nat)) (s : State R) (entry : Nat × Nat) : State R :=
  (s.processShadowRam entry.1 entry.2).2.processDirtyRegisters tables entry.1
    (s.processShadowRam entry.1 entry.2).1

theorem control_processDirtyRegisters :
    (s.processDirtyRegisters tables method argument).control = s.control := by
  unfold State.processDirtyRegisters
  split <;> rfl

theorem control_setShadow (h : method ≠ Reg.shadowRamControl) : (s.setShadow method value).control = s.control :=
  Function.update_of_ne h.symm _ _

theorem control_writeRegister (h : entry.1 ≠ Reg.shadowRamControl) :
    (s.writeRegister tables entry).control = s.control := by
  rw [State.writeRegister, control_processDirtyRegisters]
  unfold State.processShadowRam
  split
  · exact control_setShadow h
  · split <;> rfl

theorem foldl_eq_of_control {P : Nat → Prop} {f : State R → Nat × Nat → State R}
    (hf : ∀ s entry, P s.control → f s entry = s.writeRegister tables entry) (hs : P s.control)
    (hsink : ∀ entry ∈ sink, entry.1 ≠ Reg.shadowRamControl) :
    sink.foldl f s = sink.foldl (State.writeRegister tables) s := by
  induction sink generalizing s with
  | nil => rfl
  | cons entry sink ih =>
    have hentry := hsink entry mem_cons_self
    rw [foldl_cons, foldl_cons, hf s entry hs]
    refine ih ?_ fun e he => hsink e (mem_cons_of_mem _ he)
    rw [control_writeRegister hentry]
    exact hs

/-- **The sink makes each write as `CallMethod` would**, although it reads the control once. -/
theorem consumeSinkImpl_eq (hsink : ∀ entry ∈ sink, entry.1 ≠ Reg.shadowRamControl) :
    s.consumeSinkImpl tables sink = sink.foldl (State.writeRegister tables) s := by
  unfold State.consumeSinkImpl
  split
  · next htrack =>
    refine foldl_eq_of_control
      (P := fun c => c = ShadowRamControl.track ∨ c = ShadowRamControl.trackWithFilter) ?_ htrack hsink
    intro s entry h
    rw [State.writeRegister, State.processShadowRam, if_pos h]
  · next htrack =>
    split
    · next hreplay =>
      refine foldl_eq_of_control (P := fun c => c = ShadowRamControl.replay) ?_ hreplay hsink
      intro s entry h
      rw [State.writeRegister, State.processShadowRam, if_neg (by rw [h]; decide), if_pos h]
    · next hreplay =>
      refine foldl_eq_of_control (P := fun c => ¬(c = ShadowRamControl.track ∨
        c = ShadowRamControl.trackWithFilter) ∧ c ≠ ShadowRamControl.replay) ?_ ⟨htrack, hreplay⟩ hsink
      intro s entry h
      rw [State.writeRegister, State.processShadowRam, if_neg h.1, if_neg h.2]

/-! ## 3. One write -/

/-- The writes that wait are to methods that wait. -/
def Waiting (m : Maxwell3D R) : Prop := ∀ entry ∈ m.methodSink, isMethodExecutable entry.1 = false

theorem consumeSink_eq (h : Waiting m) : m.consumeSink env =
    { m with state := m.methodSink.foldl (State.writeRegister env.tables) m.state, methodSink := [] } := by
  obtain ⟨state, sink, seen⟩ := m
  have hsink : ∀ entry ∈ sink, entry.1 ≠ Reg.shadowRamControl := fun e he => ne_shadowRamControl (h e he)
  cases sink with
  | nil => rfl
  | cons entry sink =>
    rw [Maxwell3D.consumeSink]
    simp only [consumeSinkImpl_eq hsink]

theorem callMethod_of_not_executable {w : Write} (h : isMethodExecutable w.method = false) :
    m.callMethod env w = { m with state := m.state.writeRegister env.tables (w.method, w.argument) } := by
  rw [Maxwell3D.callMethod, if_neg (Nat.not_le_of_lt (lt_of_not_executable h))]
  simp only [Maxwell3D.processMethodCall, methodActions_of_not_executable h, if_neg (ne_shadowRamControl h),
    foldl_nil, map_nil, append_nil, State.writeRegister]

theorem methodSink_callMethod {w : Write} (hw : w.method < macroRegistersStart) :
    (m.callMethod env w).methodSink = m.methodSink := by
  rw [Maxwell3D.callMethod, if_neg (Nat.not_le_of_lt hw)]
  rfl

theorem methodSink_consumeSink : (m.consumeSink env).methodSink = [] := by
  unfold Maxwell3D.consumeSink
  split
  · next h => exact h
  · rfl

theorem consumeSink_of_nil (h : m.methodSink = []) : m.consumeSink env = m := by
  rw [Maxwell3D.consumeSink, h]

/-- **One write**: consuming the sink after it is making it at once after the sink. -/
theorem consumeSink_deferred (h : Waiting m) {w : Write} (hw : w.method < macroRegistersStart) :
    (m.deferred env w).consumeSink env = (m.consumeSink env).immediate env w ∧ Waiting (m.deferred env w) := by
  unfold Maxwell3D.deferred Maxwell3D.immediate
  by_cases he : isMethodExecutable w.method = true
  · have hnil : (((m.consumeSink env).note w).callMethod env w).methodSink = [] := by
      rw [methodSink_callMethod hw]
      exact methodSink_consumeSink
    rw [if_pos he, if_pos he]
    refine ⟨consumeSink_of_nil hnil, fun e hmem => ?_⟩
    rw [hnil] at hmem
    cases hmem
  · have hn : isMethodExecutable w.method = false := by
      rw [← Bool.not_eq_true]
      exact he
    have hwaiting : Waiting { m with methodSink := m.methodSink ++ [(w.method, w.argument)] } := by
      intro e hmem
      rcases mem_append.mp hmem with hmem | hmem
      · exact h e hmem
      · rw [mem_singleton.mp hmem]
        exact hn
    rw [if_neg he, if_neg he, consumeSink_eq h, callMethod_of_not_executable hn, consumeSink_eq hwaiting]
    refine ⟨?_, hwaiting⟩
    simp only [foldl_append, foldl_cons, foldl_nil]

/-! ## 4. Runs -/

theorem consumeSink_foldl_deferred (h : Waiting m) (writes : List Write)
    (hw : ∀ w ∈ writes, w.method < macroRegistersStart) :
    (writes.foldl (Maxwell3D.deferred env) m).consumeSink env =
      writes.foldl (Maxwell3D.immediate env) (m.consumeSink env) := by
  induction writes generalizing m with
  | nil => rfl
  | cons w writes ih =>
    obtain ⟨hstep, hwaiting⟩ := @consumeSink_deferred _ env _ h _ (hw w mem_cons_self)
    rw [foldl_cons, foldl_cons, ih hwaiting fun v hv => hw v (mem_cons_of_mem _ hv), hstep]

/-- **Deferred writes are unobservable**: the state at each executed call, the actions, and the state after
the last `ConsumeSink` are those of writes made at once. -/
theorem deferred_unobservable (env : Environment R) (state : State R) (writes : List Write)
    (hw : ∀ w ∈ writes, w.method < macroRegistersStart) :
    (writes.foldl (Maxwell3D.deferred env) ⟨state, [], []⟩).consumeSink env =
      writes.foldl (Maxwell3D.immediate env) ⟨state, [], []⟩ :=
  consumeSink_foldl_deferred (m := ⟨state, [], []⟩) (fun _ h => nomatch h) writes hw

/-- An engine with one table, whose firmware call writes a scratch register. -/
def scratchEnvironment : Environment Unit where
  tables := [fun method => method % 8]
  perform a s := if a = .processFirmwareCall4 then { s with regs := Function.update s.regs 0xD00 1 } else s
  processMacro _ m := m

/-- Writes to a register that waits, before and after the control changes and a firmware call is executed. -/
def scratchWrites : List Write :=
  [⟨0x100, 5, true⟩, ⟨Reg.shadowRamControl, ShadowRamControl.replay, true⟩, ⟨0x100, 7, true⟩,
    ⟨Reg.falcon4, 0, true⟩, ⟨0x101, 9, true⟩]

theorem deferred_unobservable_scratch : (scratchWrites.foldl (Maxwell3D.deferred scratchEnvironment)
        ⟨⟨fun _ => 0, fun _ => 0, fun _ => false, ()⟩, [], []⟩).consumeSink scratchEnvironment =
      scratchWrites.foldl (Maxwell3D.immediate scratchEnvironment)
        ⟨⟨fun _ => 0, fun _ => 0, fun _ => false, ()⟩, [], []⟩ :=
  deferred_unobservable scratchEnvironment _ scratchWrites (by decide)

end Yuzu.VideoCore.Maxwell
