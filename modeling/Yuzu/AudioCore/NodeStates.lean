/-
  File:      Yuzu/AudioCore/NodeStates.lean
  Subject:   The mix graph's sorter: `EdgeMatrix`, `NodeStates` with its work stack, and
             `NodeStates::Tsort` (audio_core/renderer/nodes).

  The stack is the list of its entries in `stack[0 .. pos)`, top first; a push at `pos = size` is
  the write behind the work buffer and has the fault `stackOverflow`. The results are the entries
  written so far, in the order they were written. Node ids stay below the node count, so the two
  bit arrays are functions.
-/
import Yuzu.Lib.Topological
import Mathlib.Algebra.Order.Ring.Int

namespace Yuzu.AudioCore

open List

/-! ## 1. The edge matrix -/

/-- What a search can run into, beside its two results. -/
inductive Fault where
  | stackOverflow
  | resultsOverflow
  | edgesOutOfRange
  | outOfFuel
  deriving DecidableEq, Repr

/-- `EdgeMatrix`: one bit for each pair of nodes; the number of bits is computed in 32 bits. -/
structure EdgeMatrix where
  count : Nat
  edges : List Bool
  edges_length : edges.length = count * count % 2 ^ 32

namespace EdgeMatrix

/-- `EdgeMatrix::Initialize`. -/
def initializeMatrix (count : Nat) : EdgeMatrix where
  count := count
  edges := List.replicate (count * count % 2 ^ 32) false
  edges_length := length_replicate

/-- The index of the bit of a pair of nodes. -/
def edgeIndex (m : EdgeMatrix) (id destinationId : Nat) : Nat :=
  (m.count * id + destinationId) % 2 ^ 32

/-- `EdgeMatrix::Connected`. -/
def connected (m : EdgeMatrix) (id destinationId : Nat) : Except Fault Bool :=
  match m.edges[m.edgeIndex id destinationId]? with
  | some bit => .ok bit
  | none => .error .edgesOutOfRange

/-- `EdgeMatrix::Connect`. -/
def connect (m : EdgeMatrix) (id destinationId : Nat) : EdgeMatrix where
  count := m.count
  edges := m.edges.set (m.edgeIndex id destinationId) true
  edges_length := by rw [length_set, m.edges_length]

/-- `EdgeMatrix::Disconnect`. -/
def disconnect (m : EdgeMatrix) (id destinationId : Nat) : EdgeMatrix where
  count := m.count
  edges := m.edges.set (m.edgeIndex id destinationId) false
  edges_length := by rw [length_set, m.edges_length]

/-- The graph of the matrix. -/
def Edge (m : EdgeMatrix) (u v : Nat) : Prop :=
  u < m.count ∧ v < m.count ∧ m.connected u v = .ok true

theorem connected_ok (m : EdgeMatrix) {u v : Nat} (hc : m.count * m.count < 2 ^ 32)
    (hu : u < m.count) (hv : v < m.count) : ∃ bit, m.connected u v = .ok bit := by
  have hlt : m.count * u + v < m.count * m.count := by
    have h := Nat.mul_le_mul_left m.count (Nat.succ_le_of_lt hu)
    rw [Nat.mul_succ] at h
    omega
  have hi : m.edgeIndex u v < m.edges.length := by
    unfold edgeIndex
    rw [m.edges_length, Nat.mod_eq_of_lt hc, Nat.mod_eq_of_lt (Nat.lt_trans hlt hc)]
    exact hlt
  exact ⟨m.edges[m.edgeIndex u v], by simp only [connected, List.getElem?_eq_getElem hi]⟩

end EdgeMatrix

/-! ## 2. The node states -/

/-- `NodeStates::SearchState`. -/
inductive SearchState where
  | unknown
  | found
  | complete
  deriving DecidableEq, Repr

/-- `NodeStates`. -/
structure NodeStates where
  nodeCount : Nat
  nodesFound : Nat → Bool
  nodesComplete : Nat → Bool
  results : List Nat
  stack : List Nat
  stackSize : Nat

namespace NodeStates

/-- `NodeStates::Initialize` of a new object. -/
def initializeStates (count : Nat) : NodeStates where
  nodeCount := count
  nodesFound _ := false
  nodesComplete _ := false
  results := []
  stack := []
  stackSize := count * count % 2 ^ 32

/-- `NodeStates::GetState`. -/
def getState (s : NodeStates) (id : Nat) : SearchState :=
  if s.nodesFound id then .found else if s.nodesComplete id then .complete else .unknown

/-- `NodeStates::SetState`. -/
def setState (s : NodeStates) (id : Nat) (state : SearchState) : NodeStates :=
  match state with
  | .complete =>
    { s with
      nodesFound := Function.update s.nodesFound id false
      nodesComplete := Function.update s.nodesComplete id true }
  | .found =>
    { s with
      nodesFound := Function.update s.nodesFound id true
      nodesComplete := Function.update s.nodesComplete id false }
  | .unknown =>
    { s with
      nodesFound := Function.update s.nodesFound id false
      nodesComplete := Function.update s.nodesComplete id false }

/-- `NodeStates::ResetState`; the stack position is not among what it resets. -/
def resetState (s : NodeStates) : NodeStates :=
  { s with nodesFound := fun _ => false, nodesComplete := fun _ => false, results := [] }

/-- `NodeStates::PushTsortResult`. -/
def pushTsortResult (s : NodeStates) (id : Nat) : Except Fault NodeStates :=
  if s.results.length < s.nodeCount then .ok { s with results := s.results ++ [id] }
  else .error .resultsOverflow

/-- `Stack::push`. -/
def push (s : NodeStates) (data : Nat) : Except Fault NodeStates :=
  if s.stack.length < s.stackSize then .ok { s with stack := data :: s.stack }
  else .error .stackOverflow

/-- The whole results buffer; entries not written since the last reset hold `-1`. -/
def resultsBuffer (s : NodeStates) : List Nat :=
  s.results ++ List.replicate (s.nodeCount - s.results.length) (2 ^ 32 - 1)

/-- `NodeStates::GetSortedResuls`: the buffer from its end, and the number of results. -/
def getSortedResults (s : NodeStates) : List Nat × Nat :=
  (s.resultsBuffer.reverse, s.results.length)

/-! ## 3. The search -/

/-- The edges of the current node, in order: unknown nodes are pushed, a found one is a cycle. -/
def visitEdges (m : EdgeMatrix) (current : Nat) : List Nat → NodeStates → Except Fault (Bool × NodeStates)
  | [], s => .ok (true, s)
  | edgeId :: edgeIds, s =>
    match m.connected current edgeId with
    | .error fault => .error fault
    | .ok false => visitEdges m current edgeIds s
    | .ok true =>
      match s.getState edgeId with
      | .unknown =>
        match s.push edgeId with
        | .error fault => .error fault
        | .ok s' => visitEdges m current edgeIds s'
      | .found => .ok (false, s.resetState)
      | .complete => visitEdges m current edgeIds s

/-- The loop over the stack, for at most the given number of turns. -/
def searchStack (m : EdgeMatrix) : Nat → NodeStates → Except Fault (Bool × NodeStates)
  | fuel, s =>
    match s.stack, fuel with
    | [], _ => .ok (true, s)
    | _ :: _, 0 => .error .outOfFuel
    | current :: rest, fuel + 1 =>
      match s.getState current with
      | .unknown =>
        match visitEdges m current (List.range m.count) (s.setState current .found) with
        | .error fault => .error fault
        | .ok (false, s') => .ok (false, s')
        | .ok (true, s') => searchStack m fuel s'
      | .found =>
        match (s.setState current .complete).pushTsortResult current with
        | .error fault => .error fault
        | .ok s' => searchStack m fuel { s' with stack := rest }
      | .complete => searchStack m fuel { s with stack := rest }

/-- Turns that suffice for the loop over the stack. -/
def turns (s : NodeStates) : Nat := s.nodeCount * (s.nodeCount + 1) + s.stack.length

/-- The loop over the nodes. -/
def searchNodes (m : EdgeMatrix) : List Nat → NodeStates → Except Fault (Bool × NodeStates)
  | [], s => .ok (true, s)
  | nodeId :: nodeIds, s =>
    match if s.getState nodeId = .unknown then s.push nodeId else .ok s with
    | .error fault => .error fault
    | .ok s₁ =>
      match searchStack m s₁.turns s₁ with
      | .error fault => .error fault
      | .ok (false, s₂) => .ok (false, s₂)
      | .ok (true, s₂) => searchNodes m nodeIds s₂

/-- `NodeStates::DepthFirstSearch`. -/
def depthFirstSearch (s : NodeStates) (m : EdgeMatrix) : Except Fault (Bool × NodeStates) :=
  searchNodes m (List.range s.nodeCount) s.resetState

/-- `NodeStates::Tsort`. -/
def tsort (s : NodeStates) (m : EdgeMatrix) : Except Fault (Bool × NodeStates) :=
  s.depthFirstSearch m

/-! ## 4. What the operations change -/

variable {s s' : NodeStates} {id v : Nat} {state : SearchState}

theorem getState_setState : (s.setState id state).getState v = if v = id then state else s.getState v := by
  cases state <;> by_cases h : v = id <;> simp [setState, getState, Function.update, h]

@[simp] theorem stack_setState : (s.setState id state).stack = s.stack := by cases state <;> rfl

@[simp] theorem results_setState : (s.setState id state).results = s.results := by
  cases state <;> rfl

@[simp] theorem nodeCount_setState : (s.setState id state).nodeCount = s.nodeCount := by
  cases state <;> rfl

@[simp] theorem stackSize_setState : (s.setState id state).stackSize = s.stackSize := by
  cases state <;> rfl

@[simp] theorem getState_withStack (stack : List Nat) :
    { s with stack := stack }.getState id = s.getState id := rfl

@[simp] theorem getState_withStackResults (stack results : List Nat) :
    { s with results := results, stack := stack }.getState id = s.getState id := rfl

theorem push_ok (h : s.stack.length < s.stackSize) :
    s.push id = .ok { s with stack := id :: s.stack } := if_pos h

theorem pushTsortResult_ok (h : s.results.length < s.nodeCount) :
    s.pushTsortResult id = .ok { s with results := s.results ++ [id] } := if_pos h

theorem getSortedResults_take : s.results.length = s.nodeCount →
      s.getSortedResults.1.take s.getSortedResults.2 = s.results.reverse := by
  intro h
  have hb : s.resultsBuffer = s.results := by
    rw [resultsBuffer, h, Nat.sub_self, replicate_zero, append_nil]
  have hl : s.results.length = s.results.reverse.length := length_reverse.symm
  rw [getSortedResults, hb, hl, take_length]

end NodeStates

end Yuzu.AudioCore
