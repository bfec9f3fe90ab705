/-
  File:      Yuzu/VideoCore/DrawManager.lean
  Subject:   The draws of `DrawManager` (engines/draw_manager.cpp), and instances that are put off.

  A register is what it holds when a method is called. The first pair of a group is drawn at its end;
  the pairs behind it are counted, and what is drawn for them later starts from the first pair again.
-/
import Mathlib

namespace Yuzu.VideoCore.DrawManager

open List

/-! ## 1. Registers -/

/-- `Regs::VertexBuffer`. -/
structure VertexBuffer where
  first : UInt32
  count : UInt32
deriving DecidableEq, Inhabited

/-- `Regs::IndexBuffer`. -/
structure IndexBuffer where
  startAddrHigh : UInt32
  startAddrLow : UInt32
  limitAddrHigh : UInt32
  limitAddrLow : UInt32
  format : UInt32
  first : UInt32
  count : UInt32
deriving DecidableEq, Inhabited

/-- The registers that draws read. -/
structure Regs where
  /-- `draw.begin`. -/
  begin : UInt32
  vertexBuffer : VertexBuffer
  indexBuffer : IndexBuffer
  globalBaseInstanceIndex : UInt32
  globalBaseVertexIndex : UInt32
  primitiveTopologyControl : UInt32
  topologyOverride : UInt32
  /-- The second word of `inline_index_2x16`. -/
  inlineIndex2x16 : UInt32
  /-- The second word of `inline_index_4x8`. -/
  inlineIndex4x8 : UInt32
  vertexArrayInstanceFirst : UInt32
  vertexArrayInstanceSubsequent : UInt32
deriving DecidableEq, Inhabited

/-- `BitField`. -/
def bits (position size word : UInt32) : UInt32 := (word >>> position) &&& ((1 <<< size) - 1)

/-- `draw.topology`. -/
def Regs.topology (regs : Regs) : UInt32 := bits 0 16 regs.begin

/-- `draw.instance_id`. -/
def Regs.instanceId (regs : Regs) : UInt32 := bits 26 2 regs.begin

namespace InstanceId

/-- `InstanceId::First`. -/
def first : UInt32 := 0

/-- `InstanceId::Subsequent`. -/
def subsequent : UInt32 := 1

end InstanceId

namespace PrimitiveTopology

def points : UInt32 := 0

def lines : UInt32 := 1

def lineStrip : UInt32 := 3

end PrimitiveTopology

/-- `IndexFormat::UnsignedInt`. -/
def unsignedInt : UInt32 := 2

/-! ## 2. The state and the draws -/

/-- `DrawMode`. -/
inductive DrawMode where
  | general
  | instanced
  | inlineIndex
deriving DecidableEq, Inhabited

/-- `DrawManager::State`. -/
structure State where
  topology : UInt32 := 0
  drawMode : DrawMode := .general
  drawIndexed : Bool := false
  baseIndex : UInt32 := 0
  vertexBuffer : VertexBuffer := ⟨0, 0⟩
  indexBuffer : IndexBuffer := ⟨0, 0, 0, 0, 0, 0, 0⟩
  baseInstance : UInt32 := 0
  instanceCount : UInt32 := 0
  inlineIndexDrawIndexes : List UInt8 := []
deriving DecidableEq, Inhabited

/-- A call of the rasterizer; a draw reads the state. -/
inductive Call where
  | draw (drawIndexed : Bool) (instanceCount : UInt32) (state : State)
  | drawTexture
  | clear (layerCount : UInt32)
deriving DecidableEq

/-- `UpdateTopology`. -/
def updateTopology (regs : Regs) (s : State) : State :=
  if regs.primitiveTopologyControl = 1 then
    if regs.topologyOverride = 0 then s
    else if regs.topologyOverride = 1 then { s with topology := PrimitiveTopology.points }
    else if regs.topologyOverride = 2 then { s with topology := PrimitiveTopology.lines }
    else if regs.topologyOverride = 3 then { s with topology := PrimitiveTopology.lineStrip }
    else { s with topology := regs.topologyOverride }
  else s

/-- `ProcessDraw`, where `ShouldExecute` is `executeOn`. -/
def processDraw (executeOn : Bool) (regs : Regs) (drawIndexed : Bool) (instanceCount : UInt32) (s : State) :
    State × List Call :=
  let s := updateTopology regs s
  (s, if executeOn then [.draw drawIndexed instanceCount s] else [])

/-- `DrawEnd`. -/
def drawEnd (executeOn : Bool) (regs : Regs) (instanceCount : UInt32) (forceDraw : Bool) (s : State) :
    State × List Call :=
  let general : State × List Call :=
    let s := { s with
      baseInstance := regs.globalBaseInstanceIndex
      baseIndex := regs.globalBaseVertexIndex }
    let drawn :=
      if s.drawIndexed then
        processDraw executeOn regs true instanceCount { s with indexBuffer := regs.indexBuffer }
      else processDraw executeOn regs false instanceCount { s with vertexBuffer := regs.vertexBuffer }
    ({ drawn.1 with drawIndexed := false }, drawn.2)
  match s.drawMode with
  | .instanced => if forceDraw then general else (s, [])
  | .general => general
  | .inlineIndex =>
    let count := UInt32.ofNat (s.inlineIndexDrawIndexes.length / 4)
    let s := { s with
      baseInstance := regs.globalBaseInstanceIndex
      baseIndex := regs.globalBaseVertexIndex
      indexBuffer := { regs.indexBuffer with count := count, format := unsignedInt } }
    let drawn := processDraw executeOn regs true instanceCount s
    ({ drawn.1 with inlineIndexDrawIndexes := [] }, drawn.2)

/-- `DrawDeferred`. -/
def drawDeferred (executeOn : Bool) (regs : Regs) (s : State) : State × List Call :=
  if s.drawMode ≠ .instanced ∨ s.instanceCount = 0 then (s, [])
  else
    let drawn := drawEnd executeOn regs (s.instanceCount + 1) true s
    ({ drawn.1 with instanceCount := 0 }, drawn.2)

/-- `DrawBegin`. -/
def drawBegin (executeOn : Bool) (regs : Regs) (s : State) : State × List Call :=
  let begun : State × List Call :=
    if regs.instanceId = InstanceId.first then
      let drawn := drawDeferred executeOn regs s
      ({ drawn.1 with instanceCount := 0, drawMode := .general }, drawn.2)
    else if regs.instanceId = InstanceId.subsequent then
      ({ s with instanceCount := s.instanceCount + 1, drawMode := .instanced }, [])
    else (s, [])
  ({ begun.1 with topology := regs.topology }, begun.2)

/-- `DrawIndexSmall`. -/
def drawIndexSmall (executeOn : Bool) (regs : Regs) (argument : UInt32) (s : State) : State × List Call :=
  processDraw executeOn regs true 1 { s with
    baseInstance := regs.globalBaseInstanceIndex
    baseIndex := regs.globalBaseVertexIndex
    indexBuffer := { regs.indexBuffer with first := bits 0 16 argument, count := bits 16 12 argument }
    topology := bits 28 4 argument }

/-- `SetInlineIndexBuffer`. -/
def setInlineIndexBuffer (index : UInt32) (s : State) : State :=
  { s with
    inlineIndexDrawIndexes := s.inlineIndexDrawIndexes ++ [(index &&& 0x000000ff).toUInt8,
      ((index &&& 0x0000ff00) >>> 8).toUInt8, ((index &&& 0x00ff0000) >>> 16).toUInt8,
      ((index &&& 0xff000000) >>> 24).toUInt8]
    drawMode := .inlineIndex }

/-- `DrawArrayInstanced`, of a word of `Regs::VertexArray`. -/
def drawArrayInstanced (executeOn : Bool) (regs : Regs) (array : UInt32) (subsequent : Bool) (s : State) :
    State × List Call :=
  let count := if subsequent then s.instanceCount else 1
  processDraw executeOn regs false 1 { s with
    topology := bits 28 3 array
    vertexBuffer := ⟨bits 0 16 array, bits 16 12 array⟩
    baseInstance := count - 1
    drawMode := .instanced
    instanceCount := count + 1 }

/-- The methods that draws listen to; the small index buffers have three formats each. -/
inductive Method where
  | clearSurface
  | drawBegin
  | drawEnd
  | vertexBufferFirst
  | vertexBufferCount
  | indexBufferFirst
  | indexBufferCount
  | indexBufferSmallSubsequent
  | indexBufferSmallFirst
  | drawInlineIndex
  | inlineIndex2x16Even
  | inlineIndex4x8Index0
  | vertexArrayInstanceFirst
  | vertexArrayInstanceSubsequent
  | drawTextureSrcY0
deriving DecidableEq

/-- `ProcessMethodCall`. -/
def processMethodCall (executeOn : Bool) (regs : Regs) (argument : UInt32) (s : State) :
    Method → State × List Call
  | .clearSurface => (s, if executeOn then [.clear 1] else [])
  | .drawBegin => drawBegin executeOn regs s
  | .drawEnd => drawEnd executeOn regs 1 false s
  | .vertexBufferFirst | .vertexBufferCount | .indexBufferFirst => (s, [])
  | .indexBufferCount => ({ s with drawIndexed := true }, [])
  | .indexBufferSmallSubsequent =>
    drawIndexSmall executeOn regs argument { s with instanceCount := s.instanceCount + 1 }
  | .indexBufferSmallFirst => drawIndexSmall executeOn regs argument s
  | .drawInlineIndex => (setInlineIndexBuffer argument s, [])
  | .inlineIndex2x16Even =>
    (setInlineIndexBuffer (bits 16 16 regs.inlineIndex2x16)
      (setInlineIndexBuffer (bits 0 16 regs.inlineIndex2x16) s), [])
  | .inlineIndex4x8Index0 =>
    (setInlineIndexBuffer (bits 24 8 regs.inlineIndex4x8)
      (setInlineIndexBuffer (bits 16 8 regs.inlineIndex4x8)
        (setInlineIndexBuffer (bits 8 8 regs.inlineIndex4x8)
          (setInlineIndexBuffer (bits 0 8 regs.inlineIndex4x8) s))), [])
  | .vertexArrayInstanceFirst => drawArrayInstanced executeOn regs regs.vertexArrayInstanceFirst false s
  | .vertexArrayInstanceSubsequent =>
    drawArrayInstanced executeOn regs regs.vertexArrayInstanceSubsequent true s
  | .drawTextureSrcY0 => (s, [.drawTexture])

/-! ## 3. Groups -/

/-- A method call, with the registers at that time. -/
structure Command where
  regs : Regs
  method : Method
  argument : UInt32

/-- Method calls one after another, with rendering enabled. -/
def run : List Command → State → State × List Call
  | [], s => (s, [])
  | c :: rest, s =>
    let called := processMethodCall true c.regs c.argument s c.method
    let after := run rest called.1
    (after.1, called.2 ++ after.2)

/-- The writes between the begin and the end of a draw: those of its vertex or index buffer. -/
def IsBufferWrite (c : Command) : Prop :=
  c.method = .vertexBufferFirst ∨ c.method = .vertexBufferCount ∨ c.method = .indexBufferFirst ∨
    c.method = .indexBufferCount

/-- **A pair of `draw.begin` and `draw.end`**, with the buffer writes between them; the draw is indexed if
the count of its index buffer is written. -/
structure Pair (id : UInt32) (indexed : Bool) where
  begin : Regs
  writes : List Command
  last : Regs
  beginId : begin.instanceId = id
  buffers : ∀ c ∈ writes, IsBufferWrite c
  isIndexed : (∃ c ∈ writes, c.method = .indexBufferCount) ↔ indexed = true

/-- The method calls of a pair. -/
def Pair.commands {id : UInt32} {indexed : Bool} (p : Pair id indexed) : List Command :=
  ⟨p.begin, .drawBegin, p.begin.begin⟩ :: (p.writes ++ [⟨p.last, .drawEnd, 0⟩])

/-- **A group**: a first pair, and any number of subsequent ones. -/
structure Group where
  indexed : Bool
  first : Pair InstanceId.first indexed
  subsequent : List (Pair InstanceId.subsequent indexed)

/-- The method calls of a group. -/
def Group.commands (g : Group) : List Command := g.first.commands ++ g.subsequent.flatMap Pair.commands

/-- What is to be drawn for a group: an instance for each pair. -/
def Group.instances (g : Group) : List Bool := List.replicate (g.subsequent.length + 1) g.indexed

/-- The instances that a call draws, each with the indexed flag. -/
def Call.instances : Call → List Bool
  | .draw drawIndexed instanceCount _ => List.replicate instanceCount.toNat drawIndexed
  | .drawTexture | .clear _ => []

/-- The instances of groups, with what is put off at the end drawn by `DrawDeferred`. -/
def issued (s : State) (last : Regs) (gs : List Group) : List Bool :=
  let after := run (gs.flatMap Group.commands) s
  (after.2 ++ (drawDeferred true last after.1).2).flatMap Call.instances

/-- Nothing is put off, and no index buffer is set. -/
def Idle (s : State) : Prop := (s.drawMode ≠ .instanced ∨ s.instanceCount = 0) ∧ s.drawIndexed = false

instance (s : State) : Decidable (Idle s) := by
  unfold Idle
  infer_instance

/-! ## 4. A pair -/

theorem run_append (cs cs' : List Command) (s : State) :
    run (cs ++ cs') s = ((run cs' (run cs s).1).1, (run cs s).2 ++ (run cs' (run cs s).1).2) := by
  induction cs generalizing s with
  | nil => rfl
  | cons c cs ih => rw [cons_append, run, ih, run, append_assoc]

theorem run_writes {cs : List Command} (hcs : ∀ c ∈ cs, IsBufferWrite c) (s : State) : run cs s = ({ s with
      drawIndexed := s.drawIndexed || decide (∃ c ∈ cs, c.method = .indexBufferCount) }, []) := by
  induction cs generalizing s with
  | nil => simp [run]
  | cons c cs ih =>
    have htail := ih fun d hd => hcs d (mem_cons_of_mem c hd)
    rw [run]
    rcases hcs c mem_cons_self with h | h | h | h
    all_goals
      rw [h, processMethodCall, htail]
      simp [h]

theorem updateTopology_flags (regs : Regs) (s : State) : (updateTopology regs s).drawMode = s.drawMode ∧
      (updateTopology regs s).instanceCount = s.instanceCount := by
  unfold updateTopology
  repeat' split
  all_goals exact ⟨rfl, rfl⟩

variable {s : State}

/-- **The end of a draw** that is not put off: so many instances, and the flag is taken back. -/
theorem drawEnd_spec {forceDraw : Bool} (regs : Regs) (count : UInt32)
    (h : s.drawMode = .general ∨ (s.drawMode = .instanced ∧ forceDraw = true)) :
    ((drawEnd true regs count forceDraw s).2.flatMap Call.instances =
        List.replicate count.toNat s.drawIndexed) ∧
      (drawEnd true regs count forceDraw s).1.drawIndexed = false ∧
      (drawEnd true regs count forceDraw s).1.drawMode = s.drawMode ∧
      (drawEnd true regs count forceDraw s).1.instanceCount = s.instanceCount := by
  rcases h with h | ⟨h, rfl⟩
  all_goals
    unfold drawEnd
    rw [h]
    cases s.drawIndexed
    all_goals
      refine ⟨?_, rfl, (updateTopology_flags regs _).1, (updateTopology_flags regs _).2⟩
      simp [processDraw, Call.instances]

theorem drawDeferred_spec (regs : Regs) (hmode : s.drawMode = .instanced)
    (hcount : s.instanceCount ≠ 0) : (drawDeferred true regs s).2.flatMap Call.instances =
      List.replicate (s.instanceCount + 1).toNat s.drawIndexed := by
  rw [drawDeferred, if_neg (by simp [hmode, hcount])]
  exact (drawEnd_spec regs _ (.inr ⟨hmode, rfl⟩)).1

theorem drawDeferred_idle (regs : Regs) (h : s.drawMode ≠ .instanced ∨ s.instanceCount = 0) :
    drawDeferred true regs s = (s, []) := if_pos h

/-- **The first pair is drawn at its end.** -/
theorem run_first {indexed : Bool} (p : Pair InstanceId.first indexed) (hs : Idle s) :
    (run p.commands s).2.flatMap Call.instances = [indexed] ∧
      (run p.commands s).1.drawMode = .general ∧ (run p.commands s).1.instanceCount = 0 ∧
      (run p.commands s).1.drawIndexed = false := by
  have hflag : decide (∃ c ∈ p.writes, c.method = .indexBufferCount) = indexed := by
    rw [decide_eq_decide.mpr p.isIndexed]
    cases indexed <;> rfl
  rw [Pair.commands, run, processMethodCall, drawBegin, if_pos p.beginId, drawDeferred_idle _ hs.1,
    run_append, run_writes p.buffers, hflag]
  dsimp only
  rw [hs.2, Bool.false_or, run, run, processMethodCall]
  dsimp only
  have hbegun : ({ s with
      topology := p.begin.topology
      drawMode := .general
      drawIndexed := indexed
      instanceCount := 0 } : State).drawMode = .general := rfl
  obtain ⟨h, hflag', hmode, hcount⟩ := @drawEnd_spec _ false p.last 1 (.inl hbegun)
  rw [nil_append, nil_append, append_nil, h]
  exact ⟨rfl, hmode, hcount, hflag'⟩

/-- **A subsequent pair is counted**, and its flag is kept. -/
theorem run_subsequent {indexed : Bool} (p : Pair InstanceId.subsequent indexed) (s : State) :
    (run p.commands s).2 = [] ∧ (run p.commands s).1.drawMode = .instanced ∧
      (run p.commands s).1.instanceCount = s.instanceCount + 1 ∧
      (run p.commands s).1.drawIndexed = (s.drawIndexed || indexed) := by
  have hflag : decide (∃ c ∈ p.writes, c.method = .indexBufferCount) = indexed := by
    rw [decide_eq_decide.mpr p.isIndexed]
    cases indexed <;> rfl
  have hid : ¬p.begin.instanceId = InstanceId.first := by
    rw [p.beginId]
    decide
  rw [Pair.commands, run, processMethodCall, drawBegin, if_neg hid, if_pos p.beginId, run_append,
    run_writes p.buffers, hflag]
  exact ⟨rfl, rfl, rfl, rfl⟩

/-- Subsequent pairs one after another, by induction on the pairs. -/
theorem run_subsequents {indexed : Bool} {ps : List (Pair InstanceId.subsequent indexed)} (hne : ps ≠ [])
    (hs : s.drawIndexed = false ∨ s.drawIndexed = indexed) :
    (run (ps.flatMap Pair.commands) s).2 = [] ∧ (run (ps.flatMap Pair.commands) s).1.drawMode = .instanced ∧
      (run (ps.flatMap Pair.commands) s).1.instanceCount = s.instanceCount + UInt32.ofNat ps.length ∧
      (run (ps.flatMap Pair.commands) s).1.drawIndexed = indexed := by
  induction ps generalizing s with
  | nil => exact absurd rfl hne
  | cons p ps ih =>
    obtain ⟨hcalls, hmode, hcount, hflag⟩ := run_subsequent p s
    have hflag' : (run p.commands s).1.drawIndexed = indexed := by
      rw [hflag]
      rcases hs with h | h
      · rw [h, Bool.false_or]
      · rw [h, Bool.or_self]
    rw [flatMap_cons, run_append]
    dsimp only
    rw [hcalls, nil_append]
    cases ps with
    | nil => exact ⟨rfl, hmode, hcount, hflag'⟩
    | cons q ps =>
      obtain ⟨h1, h2, h3, h4⟩ := ih (cons_ne_nil q ps) (.inr hflag')
      refine ⟨h1, h2, ?_, h4⟩
      rw [h3, hcount, length_cons (a := p), UInt32.ofNat_add, UInt32.add_assoc]
      exact congrArg _ (UInt32.add_comm _ _)

/-! ## 5. Groups -/

/-- How many instances are drawn for subsequent pairs, with a counter of 32 bits. -/
def deferredInstances (pairs : Nat) : Nat :=
  if pairs % 2 ^ 32 = 0 then 0 else (pairs % 2 ^ 32 + 1) % 2 ^ 32

/-- **What is drawn for a group**: its first pair, and from all of its pairs again if there are others. -/
theorem issued_group (hs : Idle s) (last : Regs) (g : Group) :
    issued s last [g] = g.indexed :: List.replicate (deferredInstances g.subsequent.length) g.indexed := by
  obtain ⟨hcalls, hmode, hcount, hflag⟩ := run_first g.first hs
  rw [issued, flatMap_singleton, Group.commands, run_append]
  dsimp only
  rw [flatMap_append, flatMap_append, hcalls, append_assoc]
  refine congrArg (g.indexed :: ·) ?_
  by_cases hne : g.subsequent = []
  · rw [hne, flatMap_nil, run, drawDeferred_idle last (.inr hcount)]
    rfl
  obtain ⟨hcalls', hmode', hcount', hflag'⟩ := run_subsequents hne (.inl hflag)
  have hpairs : (UInt32.ofNat g.subsequent.length).toNat = g.subsequent.length % 2 ^ 32 :=
    UInt32.toNat_ofNat'
  rw [hcount, UInt32.zero_add] at hcount'
  rw [hcalls', flatMap_nil, nil_append]
  by_cases hzero : g.subsequent.length % 2 ^ 32 = 0
  · have hzero' : UInt32.ofNat g.subsequent.length = 0 := UInt32.toNat_inj.mp (hpairs.trans hzero)
    rw [drawDeferred_idle last (.inr (hcount'.trans hzero')), deferredInstances, if_pos hzero]
    rfl
  · have hzero' : UInt32.ofNat g.subsequent.length ≠ 0 := fun h => hzero (by rw [← hpairs, h]; rfl)
    rw [drawDeferred_spec last hmode' (by rwa [hcount']), hcount', hflag', UInt32.toNat_add, hpairs,
      deferredInstances, if_neg hzero]
    rfl

theorem issued_group_iff (hs : Idle s) (last : Regs) (g : Group) :
    issued s last [g] = g.instances ↔ g.subsequent = [] := by
  rw [issued_group hs, Group.instances, replicate_succ, List.cons.injEq, ← length_eq_zero_iff]
  constructor
  · intro h
    have hlen := congrArg List.length h.2
    rw [length_replicate, length_replicate, deferredInstances] at hlen
    split at hlen
    · exact hlen.symm
    · omega
  · intro h
    rw [h]
    exact ⟨rfl, rfl⟩

theorem issued_cons (hs : Idle s) (last : Regs) {g : Group} (hg : g.subsequent = []) :
    ∃ s', Idle s' ∧ ∀ gs, issued s last (g :: gs) = g.indexed :: issued s' last gs := by
  obtain ⟨hcalls, hmode, hcount, hflag⟩ := run_first g.first hs
  refine ⟨(run g.first.commands s).1, ⟨.inr hcount, hflag⟩, fun gs => ?_⟩
  have hcommands : g.commands = g.first.commands := by
    rw [Group.commands, hg, flatMap_nil, append_nil]
  rw [issued, flatMap_cons, hcommands, run_append]
  dsimp only
  rw [append_assoc, flatMap_append, hcalls]
  rfl

/-- **Every group gets an instance for each of its pairs exactly when it has one pair.** The instances of a
group are those that it adds to the groups in front of it. By induction on the groups: the first one with
subsequent pairs finds nothing put off. -/
theorem issued_iff {s : State} (hs : Idle s) (last : Regs) (gs : List Group) :
    (∀ k, issued s last (gs.take k) = (gs.take k).flatMap Group.instances) ↔
      ∀ g ∈ gs, g.subsequent = [] := by
  induction gs generalizing s with
  | nil =>
    have hnil : issued s last [] = [] := by
      rw [issued, flatMap_nil, run, drawDeferred_idle last hs.1]
      rfl
    simp [hnil]
  | cons g gs ih =>
    have hone : ∀ h : g.subsequent = [], g.instances = [g.indexed] := fun h => by
      rw [Group.instances, h]
      rfl
    constructor
    · intro h
      have hg : g.subsequent = [] := by
        refine (issued_group_iff hs last g).mp ?_
        have h₁ := h 1
        rwa [take_succ_cons, take_zero, flatMap_singleton] at h₁
      obtain ⟨s', hs', hcons⟩ := issued_cons hs last hg
      have hrest := (ih hs').mp fun k => by
        have hk := h (k + 1)
        rw [take_succ_cons, hcons, flatMap_cons, hone hg] at hk
        exact (cons.inj hk).2
      intro g' hg'
      rcases mem_cons.mp hg' with rfl | hg'
      · exact hg
      · exact hrest g' hg'
    · intro h k
      have hg := h g mem_cons_self
      obtain ⟨s', hs', hcons⟩ := issued_cons hs last hg
      cases k with
      | zero =>
        rw [take_zero, flatMap_nil, issued, flatMap_nil, run, drawDeferred_idle last hs.1]
        rfl
      | succ k =>
        rw [take_succ_cons, hcons, flatMap_cons, hone hg,
          (ih hs').mpr fun g' hg' => h g' (mem_cons_of_mem g hg')]
        rfl

/-- Registers with an instance id, for triangles. -/
def beginRegs (id : UInt32) : Regs := { (default : Regs) with begin := (id <<< 26) ||| 4 }

/-- A pair that is not indexed. -/
def arrayPair (id : UInt32) (h : (beginRegs id).instanceId = id) : Pair id false :=
  ⟨beginRegs id, [⟨beginRegs id, .vertexBufferCount, 3⟩], beginRegs id, h, by simp [IsBufferWrite], by simp⟩

/-- A pair that is indexed. -/
def indexPair (id : UInt32) (h : (beginRegs id).instanceId = id) : Pair id true :=
  ⟨beginRegs id, [⟨beginRegs id, .indexBufferCount, 3⟩], beginRegs id, h, by simp [IsBufferWrite], by simp⟩

/-- A group with an index buffer, and one without. -/
theorem issued_singles : issued {} (beginRegs 0)
    ([⟨true, indexPair _ rfl, []⟩, ⟨false, arrayPair _ rfl, []⟩].take 2) =
      (([⟨true, indexPair _ rfl, []⟩, ⟨false, arrayPair _ rfl, []⟩] : List Group).take 2).flatMap
        Group.instances :=
  (issued_iff (by decide) _ _).mpr (by simp) 2

/-- **Three instances are drawn for two pairs**: the first at its end, and both later. -/
theorem twoPairs_three : ¬∀ (s : State) (last : Regs) (gs : List Group), Idle s →
    ∀ k, issued s last (gs.take k) = (gs.take k).flatMap Group.instances := fun h =>
  absurd (h {} (beginRegs 0) [⟨false, arrayPair _ rfl, [arrayPair _ rfl]⟩] (by decide) 1) (by decide)

end Yuzu.VideoCore.DrawManager
