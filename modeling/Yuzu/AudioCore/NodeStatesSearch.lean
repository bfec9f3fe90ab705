/-
  File:      Yuzu/AudioCore/NodeStatesSearch.lean
  Subject:   What one `NodeStates::Tsort` does from a state left behind by earlier calls, and what
             a sequence of calls on one object does.

  * `Searching`: the invariant of the search. A found node stands on the stack, everything above
    its topmost entry can be reached from it, and each of its successors is complete or above it.
  * `unknowns`: nodes not visited yet. With `k` of them at most `k (k - 1) / 2` entries more than
    now are ever on the stack.
  * A call that fails leaves its stack entries behind; the next one starts above them.
-/
import Yuzu.AudioCore.NodeStates
import Yuzu.Lib.Trace
import Mathlib.Data.List.Perm.Subperm
import Mathlib.Data.List.Range
import Mathlib.Data.Nat.Choose.Basic

namespace Yuzu.AudioCore

open Relation List

namespace NodeStates

variable {m : EdgeMatrix} {s s' : NodeStates} {n u v w : Nat}

/-! ## 1. The edges of one node -/

/-- The nodes of the list that are not visited yet. -/
def unknownsIn (s : NodeStates) (ids : List Nat) : List Nat :=
  ids.filter (fun u => s.getState u = .unknown)

/-- What the edge loop leaves behind: it has pushed unknown successors, and no successor it passed
is found. -/
structure Pushed (m : EdgeMatrix) (s : NodeStates) (current : Nat) (ids pushed : List Nat) : Prop where
  length_le : pushed.length ≤ (s.unknownsIn ids).length
  successor : ∀ v ∈ pushed, m.Edge current v ∧ s.getState v = .unknown
  covered : ∀ v ∈ ids, m.Edge current v → s.getState v = .complete ∨ v ∈ pushed

/-- The two ways out of the edge loop: unknown successors pushed, or a found one met on the way. -/
def EdgesVisited (m : EdgeMatrix) (s : NodeStates) (current : Nat) (ids : List Nat) : Prop :=
  (∃ pushed, visitEdges m current ids s = .ok (true, { s with stack := pushed ++ s.stack }) ∧
    Pushed m s current ids pushed) ∨
  (∃ pushed v, visitEdges m current ids s = .ok (false, { s with stack := pushed ++ s.stack }.resetState) ∧
    (∀ u ∈ pushed, m.Edge current u) ∧ pushed.length + s.stack.length ≤ s.stackSize ∧
    m.Edge current v ∧ s.getState v = .found)

/-- **The edge loop**: with room for every unknown node of the list it pushes the unknown
successors, or it meets a found one and gives up. -/
theorem visitEdges_spec (hc : m.count * m.count < 2 ^ 32) {current : Nat} (hcur : current < m.count)
    (ids : List Nat) (hids : ∀ v ∈ ids, v < m.count) (s : NodeStates)
    (hroom : s.stack.length + (s.unknownsIn ids).length ≤ s.stackSize) :
    EdgesVisited m s current ids := by
  induction ids generalizing s with
  | nil =>
    refine .inl ⟨[], rfl, ?_, ?_, ?_⟩
    · exact Nat.zero_le _
    · exact fun v hv => absurd hv not_mem_nil
    · exact fun v hv => absurd hv not_mem_nil
  | cons e ids ih =>
    have he : e < m.count := hids e mem_cons_self
    have hids' : ∀ v ∈ ids, v < m.count := fun v hv => hids v (mem_cons_of_mem _ hv)
    have htail : (s.unknownsIn ids).length ≤ (s.unknownsIn (e :: ids)).length :=
      ((sublist_cons_self e ids).filter _).length_le
    obtain ⟨bit, hbit⟩ := m.connected_ok hc hcur he
    -- an edge that is absent, or to a complete node, is passed over
    have hpass : (m.Edge current e → s.getState e = .complete) →
        visitEdges m current (e :: ids) s = visitEdges m current ids s →
        EdgesVisited m s current (e :: ids) := by
      intro hcomp hvisit
      unfold EdgesVisited
      rw [hvisit]
      refine (ih hids' s (by omega)).imp_left ?_
      rintro ⟨pushed, hrun, hp⟩
      refine ⟨pushed, hrun, hp.length_le.trans htail, hp.successor, ?_⟩
      intro v hv hedge
      rcases mem_cons.mp hv with rfl | hv
      · exact .inl (hcomp hedge)
      · exact hp.covered v hv hedge
    cases bit with
    | false =>
      refine hpass (fun hedge => ?_) (by simp only [visitEdges, hbit])
      cases hbit.symm.trans hedge.2.2
    | true =>
      have hedge : m.Edge current e := ⟨hcur, he, hbit⟩
      cases hst : s.getState e with
      | complete => exact hpass (fun _ => hst) (by simp only [visitEdges, hbit, hst])
      | found =>
        exact .inr ⟨[], e, by simp only [visitEdges, hbit, hst, nil_append],
          fun u hu => absurd hu not_mem_nil, by simp only [length_nil]; omega,
          hedge, hst⟩
      | unknown =>
        have hcons : (s.unknownsIn (e :: ids)).length = (s.unknownsIn ids).length + 1 := by
          simp only [unknownsIn, filter_cons, hst, decide_true, if_true, length_cons]
        have hpush := @push_ok s e (by omega)
        have hrun : visitEdges m current (e :: ids) s =
            visitEdges m current ids { s with stack := e :: s.stack } := by
          simp only [visitEdges, hbit, hst, hpush]
        unfold EdgesVisited
        rw [hrun]
        have hroom' : (e :: s.stack).length + (s.unknownsIn ids).length ≤ s.stackSize := by
          rw [length_cons]
          omega
        rcases ih hids' { s with stack := e :: s.stack } hroom' with
          ⟨pushed, hrun, hp⟩ | ⟨pushed, v, hrun, hsucc, hlen, hv, hfound⟩
        · refine .inl ⟨pushed ++ [e], ?_, ?_, ?_, ?_⟩
          · rw [hrun, append_assoc]
            rfl
          · have hle : pushed.length ≤ (s.unknownsIn ids).length := hp.length_le
            rw [hcons, length_append, length_singleton]
            omega
          · intro v hv
            rcases mem_append.mp hv with hv | hv
            · exact hp.successor v hv
            · rw [mem_singleton.mp hv]
              exact ⟨hedge, hst⟩
          · intro v hv hev
            rcases mem_cons.mp hv with rfl | hv
            · exact .inr (mem_append_right _ (mem_singleton_self _))
            · exact (hp.covered v hv hev).imp_right (mem_append_left _)
        · refine .inr ⟨pushed ++ [e], v, ?_, ?_, ?_, hv, hfound⟩
          · rw [hrun, append_assoc]
            rfl
          · intro u hu
            rcases mem_append.mp hu with hu | hu
            · exact hsucc u hu
            · rw [mem_singleton.mp hu]
              exact hedge
          · simp only [length_cons, length_append, length_nil] at hlen ⊢
            omega

/-! ## 2. The invariant of the search -/

/-- The most entries that `k` unvisited nodes can still add to the stack. -/
def triangle (k : Nat) : Nat := k * (k - 1) / 2

theorem triangle_succ (k : Nat) : triangle (k + 1) = triangle k + k := Nat.triangle_succ k

theorem triangle_mono {j k : Nat} (h : j ≤ k) : triangle j ≤ triangle k :=
  Nat.div_le_div_right (Nat.mul_le_mul h (Nat.sub_le_sub_right h 1))

/-- The nodes not visited yet. -/
def unknowns (s : NodeStates) : List Nat := s.unknownsIn (List.range s.nodeCount)

theorem length_unknowns_le : s.unknowns.length ≤ s.nodeCount := by
  have h := length_filter_le (fun u => s.getState u = .unknown) (List.range s.nodeCount)
  rwa [length_range] at h

/-- What is left of an object between two calls: its sizes, and some node ids on the stack. -/
structure Idle (n : Nat) (s : NodeStates) : Prop where
  nodeCount_eq : s.nodeCount = n
  stackSize_eq : s.stackSize = n * n % 2 ^ 32
  stack_lt : ∀ u ∈ s.stack, u < n

/-- The state of a search in a graph. -/
structure Searching (m : EdgeMatrix) (s : NodeStates) : Prop where
  idle : Idle m.count s
  visited_lt : ∀ u, s.getState u ≠ .unknown → u < m.count
  mem_results : ∀ u, u ∈ s.results ↔ s.getState u = .complete
  nodup : s.results.Nodup
  follow : SuccessorsFollow m.Edge s.results.reverse
  found_mem : ∀ u, s.getState u = .found → u ∈ s.stack
  successors : ∀ u, s.getState u = .found → ∀ v, m.Edge u v →
    s.getState v = .complete ∨ v ∈ s.stack.takeWhile (· ≠ u)
  reaches : ∀ u, s.getState u = .found → ∀ v ∈ s.stack.takeWhile (· ≠ u), TransGen m.Edge u v

theorem Searching.results_length_lt (h : Searching m s) (hv : s.getState v ≠ .complete)
    (hlt : v < m.count) : s.results.length < s.nodeCount := by
  have hsub : s.results ⊆ (List.range m.count).erase v := by
    intro u hu
    have hcomp := (h.mem_results u).mp hu
    have huv : u ≠ v := fun e => hv (e ▸ hcomp)
    exact (mem_erase_of_ne huv).mpr
      (mem_range.mpr (h.visited_lt u (by rw [hcomp]; exact SearchState.noConfusion)))
  have hle := (h.nodup.subperm hsub).length_le
  rw [length_erase_of_mem (mem_range.mpr hlt), length_range] at hle
  rw [h.idle.nodeCount_eq]
  omega

variable {x : Nat} {rest : List Nat}

theorem Searching.top_lt (h : Searching m s) (hs : s.stack = x :: rest) :
    x < m.count := h.idle.stack_lt x (hs ▸ mem_cons_self)

theorem mem_takeWhile_cons (hux : x ≠ u) :
    v ∈ (x :: rest).takeWhile (· ≠ u) ↔ v = x ∨ v ∈ rest.takeWhile (· ≠ u) := by
  rw [takeWhile_cons_of_pos (by simpa using hux), mem_cons]

theorem Searching.pop (h : Searching m s) (hs : s.stack = x :: rest)
    (hx : s.getState x = .complete) : Searching m { s with stack := rest } := by
  have hne : ∀ u, s.getState u = .found → x ≠ u := by
    rintro u hu rfl
    cases hx.symm.trans hu
  refine ⟨⟨h.idle.nodeCount_eq, h.idle.stackSize_eq, ?_⟩, h.visited_lt, h.mem_results, h.nodup,
    h.follow, ?_, ?_, ?_⟩
  · exact fun u hu => h.idle.stack_lt u (hs ▸ mem_cons_of_mem _ hu)
  · intro u hu
    have hmem := h.found_mem u hu
    rw [hs] at hmem
    exact (mem_cons.mp hmem).resolve_left (Ne.symm (hne u hu))
  · intro u hu v hv
    have hsucc := h.successors u hu v hv
    rw [hs, mem_takeWhile_cons (hne u hu)] at hsucc
    rcases hsucc with hc | rfl | hmem
    · exact .inl hc
    · exact .inl hx
    · exact .inr hmem
  · intro u hu v hv
    refine h.reaches u hu v ?_
    rw [hs, mem_takeWhile_cons (hne u hu)]
    exact .inr hv

/-- The found node on top of the stack, all its successors being complete, is completed. -/
theorem Searching.finish (h : Searching m s) (hs : s.stack = x :: rest) (hx : s.getState x = .found) :
    Searching m { s.setState x .complete with results := s.results ++ [x], stack := rest } := by
  have hstate : ∀ u, (s.setState x .complete).getState u =
      if u = x then .complete else s.getState u := fun u => getState_setState
  have hxr : x ∉ s.results := by
    rw [h.mem_results x, hx]
    exact SearchState.noConfusion
  have hdone : ∀ v, m.Edge x v → s.getState v = .complete := by
    intro v hv
    refine (h.successors x hx v hv).resolve_right ?_
    rw [hs, takeWhile_cons_of_neg (by simp)]
    exact not_mem_nil
  -- another found node is found before and after
  have hfound : ∀ u, (s.setState x .complete).getState u = .found → x ≠ u ∧ s.getState u = .found := by
    intro u hu
    rw [hstate u] at hu
    split at hu
    · cases hu
    · next hne => exact ⟨Ne.symm hne, hu⟩
  refine ⟨⟨by simpa using h.idle.nodeCount_eq, by simpa using h.idle.stackSize_eq, ?_⟩, ?_, ?_, ?_, ?_, ?_,
    ?_, ?_⟩
  · exact fun u hu => h.idle.stack_lt u (hs ▸ mem_cons_of_mem _ hu)
  · intro u hu
    by_cases hux : u = x
    · exact hux ▸ h.top_lt hs
    · refine h.visited_lt u ?_
      rwa [getState_withStackResults, hstate u, if_neg hux] at hu
  · intro u
    rw [getState_withStackResults, hstate u, mem_append, mem_singleton, h.mem_results u]
    by_cases hux : u = x <;> simp [hux]
  · exact nodup_append.mpr ⟨h.nodup, nodup_singleton x, fun a ha b hb e =>
      hxr (mem_singleton.mp hb ▸ e ▸ ha)⟩
  · simp only [reverse_append, reverse_cons, reverse_nil, nil_append, singleton_append]
    refine ⟨fun v hv => mem_reverse.mpr ((h.mem_results v).mpr (hdone v hv)), h.follow⟩
  · intro u hu
    obtain ⟨hxu, hu⟩ := hfound u hu
    have hmem := h.found_mem u hu
    rw [hs] at hmem
    exact (mem_cons.mp hmem).resolve_left (Ne.symm hxu)
  · intro u hu v hv
    obtain ⟨hxu, hu⟩ := hfound u hu
    have hsucc := h.successors u hu v hv
    rw [hs, mem_takeWhile_cons hxu] at hsucc
    rw [getState_withStackResults, hstate v]
    rcases hsucc with hc | hvx | hmem
    · exact .inl (by rw [hc, ite_self])
    · exact .inl (if_pos hvx)
    · exact .inr hmem
  · intro u hu v hv
    obtain ⟨hxu, hu⟩ := hfound u hu
    refine h.reaches u hu v ?_
    rw [hs, mem_takeWhile_cons hxu]
    exact .inr hv

/-- **An unknown node is visited**: it is found, and its unknown successors go above it. -/
theorem Searching.visit (h : Searching m s) {rest pushed : List Nat}
    (hs : s.stack = x :: rest) (hx : s.getState x = .unknown)
    (hp : Pushed m (s.setState x .found) x (List.range m.count) pushed) :
    Searching m { s.setState x .found with stack := pushed ++ s.stack } := by
  have hstate : ∀ u, (s.setState x .found).getState u = if u = x then .found else s.getState u :=
    fun u => getState_setState
  have hcomplete : ∀ u, s.getState u = .complete → (s.setState x .found).getState u = .complete := by
    intro u hu
    rw [hstate u, if_neg, hu]
    rintro rfl
    cases hx.symm.trans hu
  -- what was pushed is unknown, so it hides no found node
  have hpushed : ∀ u, (s.setState x .found).getState u = .found →
      (pushed ++ s.stack).takeWhile (· ≠ u) = pushed ++ s.stack.takeWhile (· ≠ u) := by
    intro u hu
    refine takeWhile_append_of_pos fun v hv => ?_
    have hunknown := (hp.successor v hv).2
    refine decide_eq_true ?_
    rintro rfl
    cases hunknown.symm.trans hu
  refine ⟨⟨by simpa using h.idle.nodeCount_eq, by simpa using h.idle.stackSize_eq, ?_⟩, ?_, ?_, ?_, ?_,
    ?_, ?_, ?_⟩
  · intro u hu
    rcases mem_append.mp hu with hu | hu
    · exact (hp.successor u hu).1.2.1
    · exact h.idle.stack_lt u hu
  · intro u hu
    by_cases hux : u = x
    · exact hux ▸ h.top_lt hs
    · refine h.visited_lt u ?_
      rwa [getState_withStack, hstate u, if_neg hux] at hu
  · intro u
    rw [getState_withStack, results_setState, h.mem_results u, hstate u]
    by_cases hux : u = x
    · simp [hux, hx]
    · rw [if_neg hux]
  · simpa using h.nodup
  · simpa using h.follow
  · intro u hu
    rw [getState_withStack, hstate u] at hu
    split at hu
    · next hux =>
        exact mem_append_right _ (by rw [hux, hs]; exact mem_cons_self)
    · exact mem_append_right _ (h.found_mem u hu)
  · intro u hu v hv
    show (s.setState x .found).getState v = .complete ∨ v ∈ (pushed ++ s.stack).takeWhile (· ≠ u)
    rw [hpushed u hu]
    rw [getState_withStack, hstate u] at hu
    split at hu
    · next hux =>
        subst hux
        exact (hp.covered v (mem_range.mpr hv.2.1) hv).imp_right (mem_append_left _)
    · rcases h.successors u hu v hv with hc | hmem
      · exact .inl (hcomplete v hc)
      · exact .inr (mem_append_right _ hmem)
  · intro u hu v hv
    have hv' : v ∈ pushed ++ s.stack.takeWhile (· ≠ u) := hpushed u hu ▸ hv
    rw [getState_withStack, hstate u] at hu
    split at hu
    · next hux =>
        subst hux
        rw [hs, takeWhile_cons_of_neg (by simp), append_nil] at hv'
        exact .single (hp.successor v hv').1
    · next hux =>
        rcases mem_append.mp hv' with hv' | hv'
        · have hxm : x ∈ s.stack.takeWhile (· ≠ u) := by
            rw [hs, mem_takeWhile_cons (Ne.symm hux)]
            exact .inl rfl
          exact .tail (h.reaches u hu x hxm) (hp.successor v hv').1
        · exact h.reaches u hu v hv'

/-- **A found successor of the node visited closes a cycle.** -/
theorem Searching.not_acyclic (h : Searching m s)
    (hs : s.stack = x :: rest) (he : m.Edge x v) (hv : (s.setState x .found).getState v = .found) :
    ¬Acyclic m.Edge := by
  intro hac
  rw [getState_setState] at hv
  split at hv
  · next hvx => exact hac x (.single (hvx ▸ he))
  · next hvx =>
      have hxm : x ∈ s.stack.takeWhile (· ≠ v) := by
        rw [hs, mem_takeWhile_cons (Ne.symm hvx)]
        exact .inl rfl
      exact hac v (.tail (h.reaches v hv x hxm) he)

/-! ## 3. The loop over the stack -/

theorem unknownsIn_setState {state : SearchState} (hst : state ≠ .unknown) (ids : List Nat) :
    (s.setState x state).unknownsIn ids = (s.unknownsIn ids).filter (· != x) := by
  unfold unknownsIn
  rw [filter_filter]
  refine filter_congr fun u _ => ?_
  rw [getState_setState]
  by_cases hux : u = x <;> simp [hux, hst]

theorem length_unknowns_visit (hx : s.getState x = .unknown) (hlt : x < s.nodeCount) :
    (s.setState x .found).unknowns.length + 1 = s.unknowns.length := by
  have hnodup : (s.unknownsIn (List.range s.nodeCount)).Nodup := nodup_range.filter _
  have hmem : x ∈ s.unknownsIn (List.range s.nodeCount) :=
    mem_filter.mpr ⟨mem_range.mpr hlt, decide_eq_true hx⟩
  have hpos : 0 < (s.unknownsIn (List.range s.nodeCount)).length := length_pos_of_mem hmem
  unfold unknowns
  rw [nodeCount_setState, unknownsIn_setState SearchState.noConfusion, ← hnodup.erase_eq_filter,
    length_erase_of_mem hmem]
  omega

theorem length_unknowns_finish : (s.setState x .complete).unknowns.length ≤ s.unknowns.length := by
  unfold unknowns
  rw [nodeCount_setState, unknownsIn_setState SearchState.noConfusion]
  exact length_filter_le _ _

/-- The two ways out of the loop over the stack: all of it searched, or a cycle. -/
def StackSearched (m : EdgeMatrix) (fuel : Nat) (s : NodeStates) : Prop :=
  (∃ s', searchStack m fuel s = .ok (true, s') ∧ Searching m s' ∧ s'.stack = [] ∧
    s'.unknowns.length ≤ s.unknowns.length ∧
    ∀ u, u ∈ s.stack ∨ s.getState u = .complete → s'.getState u = .complete) ∨
  (∃ s', searchStack m fuel s = .ok (false, s') ∧ Idle m.count s' ∧
    s'.stack.length ≤ m.count * m.count ∧ ¬Acyclic m.Edge)

theorem StackSearched.of_step {fuel fuel' : Nat} (h : StackSearched m fuel' s')
    (hrun : searchStack m fuel s = searchStack m fuel' s')
    (hle : s'.unknowns.length ≤ s.unknowns.length)
    (hkeep : ∀ u, u ∈ s.stack ∨ s.getState u = .complete → u ∈ s'.stack ∨ s'.getState u = .complete) :
    StackSearched m fuel s := by
  unfold StackSearched
  rw [hrun]
  refine h.imp_left ?_
  rintro ⟨t, ht, hsearching, hempty, hunknowns, hdone⟩
  exact ⟨t, ht, hsearching, hempty, hunknowns.trans hle, fun u hu => hdone u (hkeep u hu)⟩

/-- **The loop over the stack** comes to an end, and never writes behind the work buffer, when
there is room for what the unvisited nodes can add. -/
theorem searchStack_spec (hc : m.count * m.count < 2 ^ 32) (fuel : Nat) (s : NodeStates)
    (h : Searching m s) (hroom : s.stack.length + triangle s.unknowns.length ≤ m.count * m.count)
    (hfuel : s.unknowns.length * (m.count + 1) + s.stack.length ≤ fuel) : StackSearched m fuel s := by
  induction fuel generalizing s with
  | zero =>
    have hs : s.stack = [] := length_eq_zero_iff.mp (by omega)
    refine .inl ⟨s, ?_, h, hs, Nat.le_refl _, fun u hu => hu.resolve_left ?_⟩
    · unfold searchStack
      rw [hs]
    · rw [hs]
      exact not_mem_nil
  | succ fuel ih =>
    cases hs : s.stack with
    | nil =>
      refine .inl ⟨s, ?_, h, hs, Nat.le_refl _, fun u hu => hu.resolve_left ?_⟩
      · unfold searchStack
        rw [hs]
      · rw [hs]
        exact not_mem_nil
    | cons x rest =>
      have hlen : s.stack.length = rest.length + 1 := by rw [hs, length_cons]
      have hsize : s.stackSize = m.count * m.count := by
        rw [h.idle.stackSize_eq, Nat.mod_eq_of_lt hc]
      have hx := h.top_lt hs
      cases hst : s.getState x with
      | complete =>
        have hrest := ih { s with stack := rest } (h.pop hs hst) (by
          show rest.length + triangle s.unknowns.length ≤ _
          omega) (by
          show s.unknowns.length * (m.count + 1) + rest.length ≤ _
          omega)
        refine hrest.of_step ?_ (Nat.le_refl _) ?_
        · conv_lhs => unfold searchStack
          simp only [hs, hst]
        · intro u hu
          rw [hs] at hu
          rcases hu with hu | hu
          · rcases mem_cons.mp hu with rfl | hu
            · exact .inr hst
            · exact .inl hu
          · exact .inr hu
      | found =>
        have hres := h.results_length_lt (by rw [hst]; exact SearchState.noConfusion) hx
        have hle := length_unknowns_finish (s := s) (x := x)
        have hmul := Nat.mul_le_mul_right (m.count + 1) hle
        have htri := triangle_mono hle
        have hrest := ih _ (h.finish hs hst) (by
          show rest.length + triangle (s.setState x .complete).unknowns.length ≤ _
          omega) (by
          show (s.setState x .complete).unknowns.length * (m.count + 1) + rest.length ≤ _
          omega)
        refine hrest.of_step ?_ hle ?_
        · have hpush := @NodeStates.pushTsortResult_ok (s.setState x .complete) x
              (by rwa [results_setState, nodeCount_setState])
          conv_lhs => unfold searchStack
          simp only [hs, hst, hpush, results_setState]
        · intro u hu
          rw [hs] at hu
          rw [getState_withStackResults, getState_setState]
          rcases hu with hu | hu
          · rcases mem_cons.mp hu with rfl | hu
            · exact .inr (if_pos rfl)
            · exact .inl hu
          · exact .inr (by rw [hu, ite_self])
      | unknown =>
        have hvisit := length_unknowns_visit hst (by rw [h.idle.nodeCount_eq]; exact hx)
        have hunknowns : (s.setState x .found).unknownsIn (List.range m.count) =
            (s.setState x .found).unknowns := by
          rw [unknowns, nodeCount_setState, h.idle.nodeCount_eq]
        have htri := triangle_succ (s.setState x .found).unknowns.length
        rw [hvisit] at htri
        have hedges := visitEdges_spec hc hx (List.range m.count)
          (fun v hv => mem_range.mp hv) (s.setState x .found) (by
            rw [stack_setState, stackSize_setState, hunknowns, hsize]
            omega)
        rcases hedges with ⟨pushed, hrun, hp⟩ | ⟨pushed, v, hrun, hsucc, hle, hv, hfound⟩
        · have hple := hp.length_le
          rw [hunknowns] at hple
          have hmul : s.unknowns.length * (m.count + 1) =
              (s.setState x .found).unknowns.length * (m.count + 1) + (m.count + 1) := by
            rw [← hvisit, Nat.succ_mul]
          have hcount : (s.setState x .found).unknowns.length ≤ m.count := by
            have := length_unknowns_le (s := s.setState x .found)
            rwa [nodeCount_setState, h.idle.nodeCount_eq] at this
          rw [stack_setState] at hrun
          have hrest := ih _ (h.visit hs hst hp) (by
            show (pushed ++ s.stack).length + triangle (s.setState x .found).unknowns.length ≤ _
            rw [length_append]
            omega) (by
            show (s.setState x .found).unknowns.length * (m.count + 1) + (pushed ++ s.stack).length ≤ _
            rw [length_append]
            omega)
          refine hrest.of_step ?_ (by
            show (s.setState x .found).unknowns.length ≤ _
            omega) ?_
          · conv_lhs => unfold searchStack
            simp only [hs, hst] at hrun ⊢
            simp only [hrun]
          · intro u hu
            rw [getState_withStack, getState_setState]
            rcases hu with hu | hu
            · exact .inl (mem_append_right _ hu)
            · refine .inr ?_
              rw [if_neg, hu]
              rintro rfl
              cases hst.symm.trans hu
        · refine .inr ⟨{ s.setState x .found with
              stack := pushed ++ (s.setState x .found).stack }.resetState, ?_, ⟨?_, ?_, ?_⟩, ?_,
            h.not_acyclic hs hv hfound⟩
          · conv_lhs => unfold searchStack
            simp only [hs, hst, hrun]
          · show (s.setState x .found).nodeCount = _
            rw [nodeCount_setState, h.idle.nodeCount_eq]
          · show (s.setState x .found).stackSize = _
            rw [stackSize_setState, h.idle.stackSize_eq]
          · intro u hu
            rcases mem_append.mp hu with hu | hu
            · exact (hsucc u hu).2.1
            · rw [stack_setState] at hu
              exact h.idle.stack_lt u hu
          · show (pushed ++ (s.setState x .found).stack).length ≤ _
            rw [length_append]
            rw [stackSize_setState, hsize] at hle
            exact hle

/-! ## 4. One call -/

theorem Searching.start (h : Searching m s) (hnone : ∀ u, s.getState u ≠ .found) (hv : v < m.count) :
    Searching m { s with stack := v :: s.stack } := by
  refine ⟨⟨h.idle.nodeCount_eq, h.idle.stackSize_eq, ?_⟩, h.visited_lt, h.mem_results, h.nodup,
    h.follow, fun u hu => absurd hu (hnone u), fun u hu => absurd hu (hnone u),
    fun u hu => absurd hu (hnone u)⟩
  intro u hu
  rcases mem_cons.mp hu with rfl | hu
  · exact hv
  · exact h.idle.stack_lt u hu

/-- **The loop over the nodes** completes every node of its list, or meets a cycle. -/
theorem searchNodes_spec (hc : m.count * m.count < 2 ^ 32) (ids : List Nat) (hids : ∀ v ∈ ids, v < m.count)
    (s : NodeStates) (h : Searching m s) (hnone : ∀ u, s.getState u ≠ .found)
    (hempty : ids = [] → s.stack = [])
    (hroom : s.stack.length + 1 + triangle s.unknowns.length ≤ m.count * m.count) :
    (∃ s', searchNodes m ids s = .ok (true, s') ∧ Searching m s' ∧ s'.stack = [] ∧
      ∀ u, u ∈ ids ∨ s.getState u = .complete → s'.getState u = .complete) ∨
    (∃ s', searchNodes m ids s = .ok (false, s') ∧ Idle m.count s' ∧
      s'.stack.length ≤ m.count * m.count ∧ ¬Acyclic m.Edge) := by
  induction ids generalizing s with
  | nil =>
    exact .inl ⟨s, rfl, h, hempty rfl, fun u hu => hu.resolve_left not_mem_nil⟩
  | cons v ids ih =>
    have hv : v < m.count := hids v mem_cons_self
    have hsize : s.stackSize = m.count * m.count := by
      rw [h.idle.stackSize_eq, Nat.mod_eq_of_lt hc]
    -- the state the stack is searched from: the node is on it, or was complete already
    obtain ⟨s1, hs1, h1, hlen, hunknowns, hkeep⟩ : ∃ s1,
        (if s.getState v = .unknown then s.push v else .ok s) = .ok s1 ∧ Searching m s1 ∧
        s1.stack.length ≤ s.stack.length + 1 ∧ s1.unknowns = s.unknowns ∧
        ∀ u, u = v ∨ s.getState u = .complete → u ∈ s1.stack ∨ s1.getState u = .complete := by
      by_cases hst : s.getState v = .unknown
      · refine ⟨{ s with stack := v :: s.stack }, ?_, h.start hnone hv, Nat.le_refl _, rfl, ?_⟩
        · rw [if_pos hst, push_ok (by omega)]
        · exact fun u hu => hu.imp_left (fun e => mem_cons.mpr (.inl e))
      · refine ⟨s, if_neg hst, h, Nat.le_succ _, rfl, fun u hu => .inr ?_⟩
        rcases hu with rfl | hu
        · cases hsv : s.getState u with
          | unknown => exact absurd hsv hst
          | found => exact absurd hsv (hnone u)
          | complete => rfl
        · exact hu
    have hturns : s1.unknowns.length * (m.count + 1) + s1.stack.length ≤ s1.turns := by
      have hle := length_unknowns_le (s := s1)
      have hmul := Nat.mul_le_mul_right (m.count + 1) hle
      rw [turns, h1.idle.nodeCount_eq] at *
      omega
    rcases searchStack_spec hc s1.turns s1 h1 (by rw [hunknowns]; omega) hturns with
      ⟨s2, hrun, h2, hstack, hle, hdone⟩ | ⟨s2, hrun, hidle, hlen2, hcycle⟩
    · have hnone2 : ∀ u, s2.getState u ≠ .found := by
        intro u hu
        have := h2.found_mem u hu
        rw [hstack] at this
        exact not_mem_nil this
      have htri : triangle s2.unknowns.length ≤ triangle s.unknowns.length :=
        triangle_mono (hunknowns ▸ hle)
      have hnext := ih (fun u hu => hids u (mem_cons_of_mem _ hu)) s2 h2 hnone2
        (fun _ => hstack) (by rw [hstack, length_nil]; omega)
      have hstep : searchNodes m (v :: ids) s = searchNodes m ids s2 := by
        simp only [searchNodes, hs1, hrun]
      rw [hstep]
      refine hnext.imp_left ?_
      rintro ⟨s', hs', h', hstack', hdone'⟩
      refine ⟨s', hs', h', hstack', fun u hu => hdone' u ?_⟩
      rcases hu with hu | hu
      · rcases mem_cons.mp hu with rfl | hu
        · exact .inr (hdone u (hkeep u (.inl rfl)))
        · exact .inl hu
      · exact .inr (hdone u (hkeep u (.inr hu)))
    · exact .inr ⟨s2, by simp only [searchNodes, hs1, hrun], hidle, hlen2, hcycle⟩

/-- Room on the stack for the search of any graph, above what earlier calls left on it. -/
def HasRoom (s : NodeStates) : Prop :=
  s.nodeCount = 0 ∨ (s.nodeCount * s.nodeCount < 2 ^ 32 ∧
    s.stack.length + 1 + triangle s.nodeCount ≤ s.nodeCount * s.nodeCount)

instance : Decidable s.HasRoom := by
  unfold HasRoom
  infer_instance

/-- The sorted results of the last successful call, as its caller reads them. -/
def sortedNodes (s : NodeStates) : List Nat := s.getSortedResults.1.take s.getSortedResults.2

theorem Idle.searching (h : Idle m.count s) : Searching m s.resetState where
  idle := ⟨h.nodeCount_eq, h.stackSize_eq, h.stack_lt⟩
  visited_lt _ hu := absurd rfl hu
  mem_results _ := ⟨fun hu => absurd hu not_mem_nil, fun hu => SearchState.noConfusion hu⟩
  nodup := nodup_nil
  follow := trivial
  found_mem _ hu := SearchState.noConfusion hu
  successors _ hu := SearchState.noConfusion hu
  reaches _ hu := SearchState.noConfusion hu

theorem Searching.topologicalOrder (h : Searching m s) (hall : ∀ u, u < m.count → s.getState u = .complete) :
    TopologicalOrder m.Edge (List.range m.count) s.sortedNodes := by
  have hperm : s.results.Perm (List.range m.count) := by
    refine (perm_ext_iff_of_nodup h.nodup nodup_range).mpr fun u => ?_
    rw [h.mem_results u, mem_range]
    exact ⟨fun hu => h.visited_lt u (by rw [hu]; exact SearchState.noConfusion), hall u⟩
  have hlen : s.results.length = s.nodeCount := by
    rw [hperm.length_eq, length_range, h.idle.nodeCount_eq]
  rw [sortedNodes, getSortedResults_take hlen]
  exact h.follow.topologicalOrder (nodup_reverse.mpr h.nodup)
    ((reverse_perm _).trans hperm) (fun u v huv => mem_range.mpr huv.1)

/-- **One call**: with room left, it sorts the graph or finds that it has a cycle. -/
theorem tsort_spec (hidle : Idle m.count s) (hroom : s.HasRoom) :
    (∃ s', s.tsort m = .ok (true, s') ∧ Idle m.count s' ∧ s'.stack = [] ∧
      TopologicalOrder m.Edge (List.range m.count) s'.sortedNodes) ∨
    (∃ s', s.tsort m = .ok (false, s') ∧ Idle m.count s' ∧
      s'.stack.length ≤ m.count * m.count ∧ ¬Acyclic m.Edge) := by
  have hcount := hidle.nodeCount_eq
  have hsearch := hidle.searching
  unfold HasRoom at hroom
  unfold tsort depthFirstSearch
  rw [hcount] at hroom ⊢
  rcases hroom with hzero | ⟨hc, hroom⟩
  · have hrange : List.range m.count = [] := by rw [hzero, range_zero]
    have hstack : s.stack = [] := by
      refine eq_nil_iff_forall_not_mem.mpr fun u hu => ?_
      have := hidle.stack_lt u hu
      omega
    refine .inl ⟨s.resetState, by rw [hrange, searchNodes], hsearch.idle, hstack, ?_⟩
    exact hsearch.topologicalOrder fun u hu => by omega
  · have hpos : List.range m.count = [] → s.resetState.stack = [] := by
      intro hrange
      have hzero : m.count = 0 := range_eq_nil.mp hrange
      rw [hzero] at hroom
      omega
    have htri : triangle s.resetState.unknowns.length ≤ triangle m.count := by
      refine triangle_mono ?_
      rw [← hcount]
      exact length_unknowns_le
    have hstack : s.resetState.stack = s.stack := rfl
    refine (searchNodes_spec hc (List.range m.count) (fun u hu => mem_range.mp hu) s.resetState
      hsearch (fun u => SearchState.noConfusion) hpos (by rw [hstack]; omega)).imp_left ?_
    rintro ⟨s', hs', h', hempty, hdone⟩
    exact ⟨s', hs', h'.idle, hempty, h'.topologicalOrder fun u hu => hdone u (.inl (mem_range.mpr hu))⟩

/-! ## 5. Calls on one object -/

/-- One call as a step of the object; a call that has a fault leaves it as it is. -/
def call (s : NodeStates) (m : EdgeMatrix) : Except Fault Bool × NodeStates :=
  match s.tsort m with
  | .ok (sorted, s') => (.ok sorted, s')
  | .error fault => (.error fault, s)

/-- **What a caller relies on**: the call stays inside the work buffer, answers what it would answer on
a new object, and an answer `true` comes with a topological order. -/
def SortsLikeFresh (s : NodeStates) (m : EdgeMatrix) : Prop :=
  ∃ sorted s', s.tsort m = .ok (sorted, s') ∧ s'.stack.length ≤ m.count * m.count ∧
    ((initializeStates m.count).call m).1 = .ok sorted ∧
    (sorted = true → TopologicalOrder m.Edge (List.range m.count) s'.sortedNodes)

theorem idle_initializeStates (n : Nat) : Idle n (initializeStates n) :=
  ⟨rfl, rfl, fun _ hu => absurd hu not_mem_nil⟩

theorem hasRoom_of_stack_nil (hs : s.stack = []) (hc : s.nodeCount * s.nodeCount < 2 ^ 32) :
    s.HasRoom := by
  rcases hn : s.nodeCount with - | k
  · exact .inl hn
  · refine .inr ⟨hc, ?_⟩
    have hle : triangle (k + 1) ≤ (k + 1) * k := Nat.div_le_self _ _
    rw [hs, hn, length_nil, Nat.mul_succ]
    omega

theorem call_initializeStates (hc : m.count * m.count < 2 ^ 32) :
    (((initializeStates m.count).call m).1 = .ok true ∧ Acyclic m.Edge) ∨
    (((initializeStates m.count).call m).1 = .ok false ∧ ¬Acyclic m.Edge) := by
  have hidle := idle_initializeStates m.count
  have hroom : (initializeStates m.count).HasRoom := hasRoom_of_stack_nil rfl hc
  unfold call
  rcases tsort_spec hidle hroom with ⟨s', hrun, -, -, horder⟩ | ⟨s', hrun, -, -, hcycle⟩
  · exact .inl ⟨by simp only [hrun], horder.acyclic⟩
  · exact .inr ⟨by simp only [hrun], hcycle⟩

theorem sortsLikeFresh_of_hasRoom (hidle : Idle m.count s) (hroom : s.HasRoom) :
    SortsLikeFresh s m ∧ Idle m.count (s.call m).2 := by
  have hc : m.count * m.count < 2 ^ 32 := by
    rcases hroom with hzero | ⟨hc, -⟩
    · rw [← hidle.nodeCount_eq, hzero]
      decide
    · rwa [hidle.nodeCount_eq] at hc
  have hfresh := call_initializeStates hc
  rcases tsort_spec hidle hroom with ⟨s', hrun, hidle', hempty, horder⟩ | ⟨s', hrun, hidle', hlen, hcycle⟩
  · have hcall : (s.call m).2 = s' := by simp only [call, hrun]
    refine ⟨⟨true, s', hrun, ?_, ?_, fun _ => horder⟩, hcall ▸ hidle'⟩
    · rw [hempty]
      exact Nat.zero_le _
    · exact (hfresh.resolve_right fun h => h.2 horder.acyclic).1
  · have hcall : (s.call m).2 = s' := by simp only [call, hrun]
    refine ⟨⟨false, s', hrun, hlen, ?_, Bool.noConfusion⟩, hcall ▸ hidle'⟩
    exact (hfresh.resolve_left fun h => hcycle h.2).1

/-- **A reused sorter**: in every sequence of calls on one object, cyclic graphs or not, in which each
call starts with room on the stack, every call sorts like one on a new object. -/
theorem calls_sort_like_fresh (n : Nat) (ms : List EdgeMatrix) (hms : ∀ m ∈ ms, m.count = n)
    (hroom : AllSteps call (fun s _ => s.HasRoom) (initializeStates n) ms) :
    AllSteps call SortsLikeFresh (initializeStates n) ms := by
  refine hroom.mono (Idle n) (fun s m hm hidle hr => ?_) (idle_initializeStates n)
  have hcount := hms m hm
  subst hcount
  exact sortsLikeFresh_of_hasRoom hidle hr

/-- The graph of two nodes, each an input of the other. -/
def twoCycle : EdgeMatrix := ((EdgeMatrix.initializeMatrix 2).connect 0 1).connect 1 0

/-- A failed call, and a good one on what it left. -/
theorem calls_sort_like_fresh_after_cycle :
    AllSteps call SortsLikeFresh (initializeStates 2) [twoCycle, twoCycle.disconnect 1 0] :=
  calls_sort_like_fresh 2 _ (by decide) ⟨by decide, by decide +kernel, trivial⟩

/-- The claim of the sorter's callers: it can be reused after every call. -/
def ReusableAfterAnyCall : Prop :=
  ∀ (n : Nat) (ms : List EdgeMatrix), (∀ m ∈ ms, m.count = n) →
    AllSteps call SortsLikeFresh (initializeStates n) ms

theorem third_cycle_overflows : (call (after call (initializeStates 2) [twoCycle, twoCycle]) twoCycle).1 =
      .error .stackOverflow := by
  decide +kernel

theorem not_reusableAfterAnyCall : ¬ReusableAfterAnyCall := by
  intro h
  obtain ⟨-, -, ⟨sorted, s', hrun, -⟩, -⟩ := h 2 [twoCycle, twoCycle, twoCycle] (by decide)
  have hover := third_cycle_overflows
  have hok : (call (after call (initializeStates 2) [twoCycle, twoCycle]) twoCycle).1 = .ok sorted := by
    simp only [after_cons, after_nil]
    rw [call, hrun]
  rw [hok] at hover
  cases hover

/-! ## 6. One call on an empty stack -/

variable {r : Bool × NodeStates}

end NodeStates

end Yuzu.AudioCore
