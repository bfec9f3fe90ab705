/-
  File:      Yuzu/Kernel/PriorityInheritanceRuns.lean
  Subject:   What `RestorePriority` and the operations on waiters keep over whole runs: it always
             ends, and then every thread stands at the priority that it inherits.
-/
import Yuzu.Kernel.PriorityInheritanceBooks
import Yuzu.Lib.Inheritance
import Yuzu.Lib.Trace
import Mathlib.Data.Finset.Option
import Mathlib.Order.Bounds.Basic

namespace Yuzu.Kernel.PriorityInheritance

open Function (update)

variable {T : Type} [DecidableEq T]

namespace Threads

variable {s s' : Threads T} {t u w thread this : T} {i key fuel : Nat} {isKernel : Bool} {p : Int}

/-! ## 1. The priority a thread inherits -/

omit [DecidableEq T] in
/-- The least of a start and of the first waiters of some locks is the least of all waiters. -/
theorem foldl_min_spec (h : Linked s none) (l : List Nat) (hl : ∀ i ∈ l, i ∈ s.heldLockInfoList t)
    (start : Int) :
    let r := l.foldl (fun p i =>
      match (s.lockInfo i).tree with
      | [] => p
      | waiter :: _ => min p (s.priority waiter)) start
    r ≤ start ∧ (∀ i ∈ l, ∀ w ∈ (s.lockInfo i).tree, r ≤ s.priority w) ∧
      (r = start ∨ ∃ i ∈ l, ∃ w ∈ (s.lockInfo i).tree, s.priority w = r) := by
  induction l generalizing start with
  | nil => simp
  | cons i l ih =>
    have hi := hl i List.mem_cons_self
    obtain ⟨first, rest, htree⟩ := List.exists_cons_of_ne_nil (h.occupied t i hi (by simp))
    have hsorted := (h.info t i hi).sorted
    rw [htree, List.pairwise_cons] at hsorted
    obtain ⟨hle, hall, hreach⟩ := ih (fun j hj => hl j (List.mem_cons_of_mem _ hj))
      (min start (s.priority first))
    simp only [List.foldl_cons, htree]
    refine ⟨hle.trans (min_le_left _ _), fun j hj w hw => ?_, ?_⟩
    · rcases List.mem_cons.mp hj with rfl | hj
      · rw [htree] at hw
        have hfirst := hle.trans (min_le_right _ _)
        rcases List.mem_cons.mp hw with rfl | hw
        · exact hfirst
        · exact hfirst.trans (hsorted.1 w hw)
      · exact hall j hj w hw
    · rcases hreach with heq | ⟨j, hj, w, hw, heq⟩
      · rcases min_choice start (s.priority first) with hm | hm
        · exact .inl (heq.trans hm)
        · exact .inr ⟨i, List.mem_cons_self, first, htree ▸ List.mem_cons_self, (heq.trans hm).symm⟩
      · exact .inr ⟨j, List.mem_cons_of_mem _ hj, w, hw, heq⟩

omit [DecidableEq T] in
/-- **The computed priority is the inherited one.** -/
theorem newPriority_isLevel (h : Linked s none) :
    IsLevel s.getLockOwner s.basePriority s.priority t (s.newPriority t) := by
  obtain ⟨hle, hall, hreach⟩ := foldl_min_spec h (s.heldLockInfoList t) (fun _ hi => hi) (s.basePriority t)
  refine ⟨hle, fun w hw => ?_, ?_⟩
  · obtain ⟨i, hi, hmem⟩ := h.getLockOwner_eq_some.mp hw
    exact hall i hi w hmem
  · rcases hreach with heq | ⟨i, hi, w, hw, heq⟩
    · exact .inl heq
    · exact .inr ⟨w, h.getLockOwner_eq_some.mpr ⟨i, hi, hw⟩, heq⟩

/-! ## 2. One round of `RestorePriority` -/

/-- **Books in order**, and who waits for a lock is in no condition variable's tree. -/
structure Standing (s : Threads T) : Prop where
  books : Books s
  apart : ∀ t, s.getLockOwner t ≠ none → s.condvarTree t = none

/-- Every thread stands at the priority it inherits. -/
abbrev Inherited (s : Threads T) : Prop := Level s.getLockOwner s.basePriority s.priority

/-- Every thread but one does. -/
abbrev InheritedExcept (s : Threads T) (t : T) : Prop :=
  LevelExcept s.getLockOwner s.basePriority s.priority t

/-- What a change of one priority leaves alone. -/
structure PriorityChanged (s s' : Threads T) (t : T) (p : Int) : Prop where
  standing : Standing s'
  basePriority : s'.basePriority = s.basePriority
  priority : s'.priority = update s.priority t p
  lockOwner : s'.getLockOwner = s.getLockOwner
  condvarTree : s'.condvarTree = s.condvarTree

theorem updatePriority_eq (s : Threads T) (t : T) (p : Int) : ∃ condvar,
    ((s.beforeUpdatePriority t).setPriority t p).afterUpdatePriority t =
      { s with priority := update s.priority t p, condvar := condvar } := by
  cases htree : s.condvarTree t with
  | none => exact ⟨s.condvar, by simp [beforeUpdatePriority, setPriority, afterUpdatePriority, htree]⟩
  | some c =>
    simp only [beforeUpdatePriority, setPriority, afterUpdatePriority, htree]
    exact ⟨_, rfl⟩

/-- **A thread's priority is changed** and it waits for the same owner as before. -/
theorem changePriority_spec (h : Standing s) (t : T) (p : Int) :
    ∃ s', s.changePriority t p = some s' ∧ PriorityChanged s s' t p := by
  rw [changePriority]
  cases howner : s.getLockOwner t with
  | none =>
    obtain ⟨condvar, heq⟩ := s.updatePriority_eq t p
    have hwait := h.books.linked.getLockOwner_eq_none.mp howner
    have hsame : ∀ w, s.waitingLockInfo w ≠ none → update s.priority t p w = s.priority w := by
      intro w hw
      refine Function.update_of_ne ?_ _ _
      intro hwt
      exact hw (hwt ▸ hwait)
    refine ⟨_, congrArg some heq, ⟨h.books.congr rfl rfl rfl rfl rfl
      fun w hw => ⟨hsame w hw, rfl, rfl⟩, h.apart⟩, rfl, rfl, rfl, rfl⟩
  | some owner =>
    obtain ⟨s1, hremove, hrewaits⟩ := removeWaiterImpl_spec h.books howner
    have hwait : s1.waitingLockInfo t = none := by
      rw [← hrewaits.books.linked.getLockOwner_eq_none, hrewaits.lockOwner, if_pos rfl]
    obtain ⟨condvar, heq⟩ := s1.updatePriority_eq t p
    have hsame : ∀ w, s1.waitingLockInfo w ≠ none → update s1.priority t p w = s1.priority w := by
      intro w hw
      refine Function.update_of_ne ?_ _ _
      intro hwt
      exact hw (hwt ▸ hwait)
    have hbooks : Books { s1 with priority := update s1.priority t p, condvar := condvar } :=
      hrewaits.books.congr rfl rfl rfl rfl rfl fun w hw => ⟨hsame w hw, rfl, rfl⟩
    have htree : s1.condvarTree t = none := by
      rw [hrewaits.same.condvarTree]
      exact h.apart t (by simp [howner])
    obtain ⟨s', hadd, hrewaits'⟩ := addWaiterImpl_spec owner hbooks hwait htree
    have hlock : s'.getLockOwner = s.getLockOwner := by
      funext v
      rw [hrewaits'.lockOwner]
      split
      · rename_i hv
        rw [hv, howner]
      · rename_i hv
        exact (hrewaits.lockOwner v).trans (if_neg hv)
    have hcondvar : s'.condvarTree = s.condvarTree :=
      hrewaits'.same.condvarTree.trans hrewaits.same.condvarTree
    refine ⟨s', ?_, ⟨hrewaits'.books, ?_⟩, ?_, ?_, hlock, hcondvar⟩
    · simp only [hremove, Option.bind_eq_bind, Option.bind_some, heq]
      exact hadd
    · rw [hlock, hcondvar]
      exact h.apart
    · exact hrewaits'.same.basePriority.trans hrewaits.same.basePriority
    · rw [hrewaits'.same.priority]
      exact congrArg (update · t p) hrewaits.same.priority

/-! ## 3. `RestorePriority` -/

/-- What a whole `RestorePriority` leaves alone. -/
structure Restored (s s' : Threads T) : Prop where
  standing : Standing s'
  inherited : Inherited s'
  basePriority : s'.basePriority = s.basePriority
  lockOwner : s'.getLockOwner = s.getLockOwner
  condvarTree : s'.condvarTree = s.condvarTree

/-- **When `RestorePriority` returns**, every thread stands at the priority it inherits. -/
theorem restorePriority_restored (fuel : Nat) : ∀ {s : Threads T} {t : T}, Standing s →
    InheritedExcept s t → restorePriority fuel s (some t) = some s' → Restored s s' := by
  induction fuel with
  | zero =>
    intro s t _ _ hrun
    rw [restorePriority] at hrun
    simp at hrun
  | succ fuel ih =>
    intro s t h hexcept hrun
    have hlevel := newPriority_isLevel (t := t) h.books.linked
    rw [restorePriority] at hrun
    split at hrun
    · rename_i heq
      obtain rfl := Option.some.inj hrun
      exact ⟨h, hexcept.level (heq ▸ hlevel), rfl, rfl, rfl⟩
    · obtain ⟨s1, hchange, hc⟩ := changePriority_spec h t (s.newPriority t)
      simp only [hchange, Option.bind_eq_bind, Option.bind_some] at hrun
      cases howner : s.getLockOwner t with
      | none =>
        rw [howner, restorePriority] at hrun
        obtain rfl := Option.some.inj hrun
        refine ⟨hc.standing, ?_, hc.basePriority, hc.lockOwner, hc.condvarTree⟩
        rw [Inherited, hc.lockOwner, hc.basePriority, hc.priority]
        exact hexcept.update_end hlevel howner
      | some owner =>
        rw [howner] at hrun
        have hexcept' : InheritedExcept s1 owner := by
          rw [InheritedExcept, hc.lockOwner, hc.basePriority, hc.priority]
          exact hexcept.update hlevel howner
        have hr := ih hc.standing hexcept' hrun
        exact ⟨hr.standing, hr.inherited, hr.basePriority.trans hc.basePriority,
          hr.lockOwner.trans hc.lockOwner, hr.condvarTree.trans hc.condvarTree⟩

theorem owners_finite (h : Linked s none) : ∃ F : Finset T, ∀ t u, s.getLockOwner t = some u → u ∈ F := by
  refine ⟨(Finset.range s.allocated).biUnion fun i => (s.lockInfo i).owner.toFinset, ?_⟩
  intro t u hu
  obtain ⟨i, hi, -⟩ := h.getLockOwner_eq_some.mp hu
  refine Finset.mem_biUnion.mpr ⟨i, Finset.mem_range.mpr (h.fresh u i hi), ?_⟩
  simp [(h.info u i hi).owner]

/-- The rounds follow the passing on of priorities. -/
theorem restorePriority_returns {next : T → Option T} {base : T → Int} {x : (T → Int) × T}
    (hacc : Acc (fun y x => Passes next base x y) x) : ∀ {s : Threads T}, Standing s →
      s.getLockOwner = next → s.basePriority = base → s.priority = x.1 →
      ∃ fuel s', restorePriority fuel s (some x.2) = some s' := by
  induction hacc with
  | intro x _ ih =>
    intro s h hnext hbase hprio
    have hlevel := newPriority_isLevel (t := x.2) h.books.linked
    by_cases heq : s.newPriority x.2 = s.priority x.2
    · exact ⟨1, s, by rw [restorePriority]; simp [heq]⟩
    · obtain ⟨s1, hchange, hc⟩ := changePriority_spec h x.2 (s.newPriority x.2)
      cases howner : s.getLockOwner x.2 with
      | none =>
        refine ⟨1, s1, ?_⟩
        rw [restorePriority]
        simp [heq, hchange, howner, restorePriority]
      | some owner =>
        obtain ⟨fuel, s', hrun⟩ := ih (s1.priority, owner)
          ⟨s.newPriority x.2, by rwa [hnext, hbase, hprio] at hlevel, hprio ▸ heq,
            hc.priority.trans (by rw [hprio]), hnext ▸ howner⟩ hc.standing
          (hc.lockOwner.trans hnext) (hc.basePriority.trans hbase) rfl
        refine ⟨fuel + 1, s', ?_⟩
        rw [restorePriority]
        simpa [heq, hchange, howner] using hrun

/-- **`RestorePriority` ends** and leaves every thread at the priority it inherits. -/
theorem restorePriority_ends (h : Standing s) (hexcept : InheritedExcept s t) :
    ∃ fuel s', restorePriority fuel s (some t) = some s' ∧ Restored s s' := by
  obtain ⟨F, hF⟩ := owners_finite h.books.linked
  obtain ⟨fuel, s', hrun⟩ := restorePriority_returns (hexcept.acc hF) h rfl rfl rfl
  exact ⟨fuel, s', hrun, restorePriority_restored fuel h hexcept hrun⟩

/-! ## 4. The operations on waiters -/

/-- **The standing state**: books in order, and every thread at the priority it inherits. -/
structure Exact (s : Threads T) : Prop where
  standing : Standing s
  inherited : Inherited s

omit [DecidableEq T] in
theorem Restored.exact (h : Restored s s') : Exact s' := ⟨h.standing, h.inherited⟩

theorem guarded_exact {guard : Prop} [Decidable guard] (h : Standing s) (hexcept : InheritedExcept s t)
    (hguard : ¬guard → IsLevel s.getLockOwner s.basePriority s.priority t (s.priority t))
    (hrun : (if guard then restorePriority fuel s (some t) else some s) = some s') : Exact s' := by
  split at hrun
  · exact (restorePriority_restored fuel h hexcept hrun).exact
  · rename_i hg
    obtain rfl := Option.some.inj hrun
    exact ⟨h, hexcept.level (hguard hg)⟩

theorem guarded_returns (guard : Prop) [Decidable guard] (h : Standing s) (hexcept : InheritedExcept s t) :
    ∃ fuel s', (if guard then restorePriority fuel s (some t) else some s) = some s' := by
  split
  · obtain ⟨fuel, s', hrun, -⟩ := restorePriority_ends h hexcept
    exact ⟨fuel, s', hrun⟩
  · exact ⟨0, s, rfl⟩

/-- A thread enters a lock: only the owner can stand above its level, and only when the new waiter
has a smaller priority. -/
theorem Rewaits.enters (hr : Rewaits s s' w (some u)) (h : Exact s)
    (hw : s.getLockOwner w = none) (htree : s.condvarTree w = none) :
    Standing s' ∧ InheritedExcept s' u ∧ (¬s'.priority w < s'.priority u →
      IsLevel s'.getLockOwner s'.basePriority s'.priority u (s'.priority u)) := by
  have hold : ∀ {v t}, s.getLockOwner v = some t → v ≠ w := by
    intro v t hv hvw
    simp [hvw, hw] at hv
  refine ⟨⟨hr.books, fun t ht => ?_⟩, fun t ht => ?_, fun hle => ?_⟩
  · rw [hr.same.condvarTree]
    by_cases htw : t = w
    · exact htw ▸ htree
    · rw [hr.lockOwner, if_neg htw] at ht
      exact h.standing.apart t ht
  · rw [hr.same.priority]
    refine (h.inherited t).congr_graph (fun v => ?_) (by rw [hr.same.basePriority])
    rw [hr.lockOwner]
    split
    · rename_i hv
      rw [hv, hw]
      simp [Ne.symm ht]
    · rfl
  · have hlevel := h.inherited u
    rw [hr.same.priority] at hle
    rw [hr.same.basePriority, hr.same.priority]
    refine ⟨hlevel.le_base, fun v hv => ?_, ?_⟩
    · rw [hr.lockOwner] at hv
      split at hv
      · rename_i hvw
        exact hvw ▸ not_lt.mp hle
      · exact hlevel.le_waiting v hv
    · rcases hlevel.reached with hb | ⟨v, hv, heq⟩
      · exact .inl hb
      · exact .inr ⟨v, by rw [hr.lockOwner, if_neg (hold hv), hv], heq⟩

/-- A thread leaves a lock: only the owner can stand below its level, and only when it has the
waiter's priority by inheritance. -/
theorem Rewaits.leaves (hr : Rewaits s s' w none) (h : Exact s) (hw : s.getLockOwner w = some u) :
    Standing s' ∧ InheritedExcept s' u ∧
      (¬(s'.priority u = s'.priority w ∧ s'.priority u < s'.basePriority u) →
        IsLevel s'.getLockOwner s'.basePriority s'.priority u (s'.priority u)) := by
  refine ⟨⟨hr.books, fun t ht => ?_⟩, fun t ht => ?_, fun hguard => ?_⟩
  · rw [hr.lockOwner] at ht
    rw [hr.same.condvarTree]
    split at ht
    · exact absurd rfl ht
    · exact h.standing.apart t ht
  · rw [hr.same.priority]
    refine (h.inherited t).congr_graph (fun v => ?_) (by rw [hr.same.basePriority])
    rw [hr.lockOwner]
    split
    · rename_i hv
      rw [hv, hw]
      simp [Ne.symm ht]
    · rfl
  · have hlevel := h.inherited u
    rw [hr.same.basePriority, hr.same.priority] at hguard ⊢
    refine ⟨hlevel.le_base, fun v hv => ?_, ?_⟩
    · rw [hr.lockOwner] at hv
      split at hv
      · simp at hv
      · exact hlevel.le_waiting v hv
    · rcases hlevel.reached with hb | ⟨v, hv, heq⟩
      · exact .inl hb
      · by_cases hvw : v = w
        · left
          subst hvw
          exact le_antisymm hlevel.le_base (not_lt.mp fun hlt => hguard ⟨heq.symm, hlt⟩)
        · exact .inr ⟨v, by rw [hr.lockOwner, if_neg hvw, hv], heq⟩

/-- A lock goes over to its first waiter: the new owner already stands at its level, and the old
one can only stand below. -/
theorem passLock_exact (h : Exact s) (hi : i ∈ s.heldLockInfoList this) :
    ∃ next more s', s.passLock this i = some ((next, more), s') ∧ Standing s' ∧ InheritedExcept s' this ∧
      (¬(s'.priority this = s'.priority next ∧ s'.priority this < s'.basePriority this) →
        IsLevel s'.getLockOwner s'.basePriority s'.priority this (s'.priority this)) := by
  obtain ⟨next, rest, s', htree, hrun, hbooks, hsame, howner⟩ := passLock_spec h.standing.books hi
  have hok := h.standing.books.linked.info this i hi
  have hnext : s.getLockOwner next = some this :=
    h.standing.books.linked.getLockOwner_eq_some.mpr ⟨i, hi, htree ▸ List.mem_cons_self⟩
  have hwaits : ∀ {v}, s.waitingLockInfo v = some i → s.getLockOwner v = some this := by
    intro v hv
    rw [getLockOwner, hv, Option.bind_some, hok.owner]
  -- the next owner is the first of the lock's waiters
  have hfirst : ∀ {v}, s.waitingLockInfo v = some i → s.priority next ≤ s.priority v := by
    intro v hv
    obtain ⟨t, ht, hmem⟩ := h.standing.books.linked.listed v i hv
    rw [htree] at hmem
    have hsorted := hok.sorted
    rw [htree, List.pairwise_cons] at hsorted
    rcases List.mem_cons.mp hmem with rfl | hmem
    · exact le_rfl
    · exact hsorted.1 v hmem
  refine ⟨next, _, s', hrun, ⟨hbooks, fun t ht => ?_⟩, fun t ht => ?_, fun hguard => ?_⟩
  · rw [hsame.condvarTree]
    refine h.standing.apart t ?_
    rw [howner] at ht
    split at ht
    · exact absurd rfl ht
    · split at ht
      · rename_i hv
        rw [hwaits hv]
        simp
      · exact ht
  · rw [hsame.basePriority, hsame.priority]
    have hlevel := h.inherited t
    refine ⟨hlevel.le_base, fun v hv => ?_, ?_⟩
    · rw [howner] at hv
      split at hv
      · simp at hv
      · split at hv
        · rename_i hvi
          obtain rfl := Option.some.inj hv
          exact hfirst hvi
        · exact hlevel.le_waiting v hv
    · rcases hlevel.reached with hb | ⟨v, hv, heq⟩
      · exact .inl hb
      · have hvn : v ≠ next := fun hvn => ht (Option.some.inj (hv.symm.trans (hvn ▸ hnext)))
        have hvi : s.waitingLockInfo v ≠ some i :=
          fun hvi => ht (Option.some.inj (hv.symm.trans (hwaits hvi)))
        exact .inr ⟨v, by rw [howner, if_neg hvn, if_neg hvi, hv], heq⟩
  · have hlevel := h.inherited this
    rw [hsame.basePriority, hsame.priority] at hguard ⊢
    refine ⟨hlevel.le_base, fun v hv => ?_, ?_⟩
    · rw [howner] at hv
      split at hv
      · simp at hv
      · split at hv
        · rename_i hvi
          exact hlevel.le_waiting v (hwaits hvi)
        · exact hlevel.le_waiting v hv
    · rcases hlevel.reached with hb | ⟨v, hv, heq⟩
      · exact .inl hb
      · by_cases hvi : s.waitingLockInfo v = some i
        · left
          have heq' : s.priority this = s.priority next :=
            le_antisymm (hlevel.le_waiting next hnext) (heq ▸ hfirst hvi)
          exact le_antisymm hlevel.le_base (not_lt.mp fun hlt => hguard ⟨heq', hlt⟩)
        · have hvn : v ≠ next := by
            intro hvn
            subst hvn
            exact hvi (hok.waiting v (htree ▸ List.mem_cons_self))
          exact .inr ⟨v, by rw [howner, if_neg hvn, if_neg hvi, hv], heq⟩

theorem setBase_exact (this : T) (h : Exact s) (value : Int) :
    Standing { s with basePriority := update s.basePriority this value } ∧
      InheritedExcept { s with basePriority := update s.basePriority this value } this := by
  refine ⟨⟨h.standing.books.congr rfl rfl rfl rfl rfl fun _ _ => ⟨rfl, rfl, rfl⟩,
    h.standing.apart⟩, fun t ht => ?_⟩
  exact (h.inherited t).congr_graph (fun _ => Iff.rfl) (Function.update_of_ne ht _ _)

end Threads

/-! ## 5. Runs -/

open Threads List Option Function

/-- The calls that change waiters, base priorities and address keys. -/
inductive Request (T : Type) where
  | addWaiter (this thread : T)
  | removeWaiter (this thread : T)
  | removeWaiterByKey (this : T) (key : Nat) (isKernelAddressKey : Bool)
  | setBasePriority (this : T) (value : Int)
  | increaseBasePriority (this : T) (priority : Int)
  | setAddressKey (this : T) (key : Nat) (isKernel : Bool)
  | setConditionVariable (this : T) (tree address cvKey : Nat)
  | clearConditionVariable (this : T)

def perform (fuel : Nat) (s : Threads T) : Request T → Option (Threads T)
  | .addWaiter this thread => s.addWaiter fuel this thread
  | .removeWaiter this thread => s.removeWaiter fuel this thread
  | .removeWaiterByKey this key isKernel =>
    (s.removeWaiterByKey fuel this key isKernel).map fun r => r.2.2
  | .setBasePriority this value => s.setBasePriority fuel this value
  | .increaseBasePriority this priority => s.increaseBasePriority fuel this priority
  | .setAddressKey this key isKernel => s.setAddressKey this key isKernel
  | .setConditionVariable this tree address cvKey => s.setConditionVariable this tree address cvKey
  | .clearConditionVariable this => some (s.clearConditionVariable this)

/-- The calls that the callers may make: a thread that is to wait waits for nothing yet, one that
leaves waits for this owner, and base priorities are in range. -/
def Allowed (s : Threads T) : Request T → Prop
  | .addWaiter _ thread => s.waitingLockInfo thread = none ∧ s.condvarTree thread = none
  | .removeWaiter this thread => s.getLockOwner thread = some this
  | .removeWaiterByKey _ _ _ => True
  | .setBasePriority _ value => highestThreadPriority ≤ value ∧ value ≤ lowestThreadPriority
  | .increaseBasePriority _ priority =>
    highestThreadPriority ≤ priority ∧ priority ≤ lowestThreadPriority
  | .setAddressKey this _ _ => s.waitingLockInfo this = none
  | .setConditionVariable this _ _ _ => s.waitingLockInfo this = none ∧ s.condvarTree this = none
  | .clearConditionVariable _ => True

/-- An allowed call that returns, after however many rounds of `RestorePriority`. -/
def Step (s : Threads T) (r : Request T) (s' : Threads T) : Prop :=
  Allowed s r ∧ ∃ fuel, perform fuel s r = some s'

variable {s s' : Threads T} {r : Request T}

omit [DecidableEq T] in
theorem start_exact (prio : T → Int) : Threads.Exact (start prio) where
  standing := ⟨⟨⟨by simp [start], by simp [start], by simp [start], by simp [start],
    by simp [start]⟩, fun _ => rfl⟩, by simp [start, getLockOwner]⟩
  inherited t := ⟨le_rfl, by simp [start, getLockOwner], .inl rfl⟩

omit [DecidableEq T] in
theorem Threads.Exact.congr (h : Threads.Exact s) (hinfo : s'.lockInfo = s.lockInfo)
    (hheld : s'.heldLockInfoList = s.heldLockInfoList)
    (hwaiting : s'.waitingLockInfo = s.waitingLockInfo) (halloc : s'.allocated = s.allocated)
    (hnum : s'.numKernelWaiters = s.numKernelWaiters) (hbase : s'.basePriority = s.basePriority)
    (hprio : s'.priority = s.priority)
    (hsame : ∀ w, s.waitingLockInfo w ≠ none → s'.addressKey w = s.addressKey w ∧
      s'.isKernelAddressKey w = s.isKernelAddressKey w)
    (htree : ∀ w, s.getLockOwner w ≠ none → s.condvarTree w = none → s'.condvarTree w = none) :
    Threads.Exact s' := by
  have howner : s'.getLockOwner = s.getLockOwner :=
    funext fun _ => getLockOwner_congr hinfo hwaiting
  refine ⟨⟨h.standing.books.congr hinfo hheld hwaiting halloc hnum fun w hw =>
    ⟨by rw [hprio], hsame w hw⟩, fun t ht => ?_⟩, ?_⟩
  · rw [howner] at ht
    exact htree t ht (h.standing.apart t ht)
  · rw [Inherited, howner, hbase, hprio]
    exact h.inherited

theorem setConditionVariable_eq (this : T) (tree address cvKey : Nat)
    (hw : s.waitingLockInfo this = none) (ht : s.condvarTree this = none) : ∃ condvar,
    s.setConditionVariable this tree address cvKey = some { s with
      condvarTree := update s.condvarTree this (some tree)
      condvarKey := update s.condvarKey this cvKey
      addressKey := update s.addressKey this address
      isKernelAddressKey := update s.isKernelAddressKey this false
      condvar := condvar } := by
  rw [setConditionVariable, assert_bind_of hw, assert_bind_of ht]
  simp only [afterUpdatePriority, update_self]
  exact ⟨_, rfl⟩

theorem clearConditionVariable_eq (s : Threads T) (this : T) : ∃ condvar, s.clearConditionVariable this =
      { s with condvarTree := update s.condvarTree this none, condvar := condvar } := by
  rw [clearConditionVariable, beforeUpdatePriority]
  split
  · exact ⟨s.condvar, rfl⟩
  · exact ⟨_, rfl⟩

theorem perform_removeWaiterByKey {this next : T} {key i fuel : Nat} {isKernel more : Bool}
    {s1 : Threads T} (hfind : s.findHeldLock this key isKernel = some i)
    (hpass : s.passLock this i = some ((next, more), s1)) :
    perform fuel s (.removeWaiterByKey this key isKernel) =
      if s1.priority this = s1.priority next ∧ s1.priority this < s1.basePriority this then
        restorePriority fuel s1 (some this)
      else some s1 := by
  simp only [perform, removeWaiterByKey, hfind, hpass, bind_eq_bind, bind_some]
  split
  · cases restorePriority fuel s1 (some this) <;> rfl
  · rfl

/-- **Every operation keeps the state exact.** -/
theorem step_exact (h : Threads.Exact s) (hstep : Step s r s') : Threads.Exact s' := by
  obtain ⟨hallowed, fuel, hrun⟩ := hstep
  cases r with
  | addWaiter this thread =>
    obtain ⟨s1, hadd, hr⟩ := addWaiterImpl_spec this h.standing.books hallowed.1 hallowed.2
    obtain ⟨hs, hexcept, hguard⟩ := hr.enters h
      (h.standing.books.linked.getLockOwner_eq_none.mpr hallowed.1) hallowed.2
    simp only [perform, addWaiter, hadd, bind_eq_bind, bind_some] at hrun
    exact guarded_exact hs hexcept hguard hrun
  | removeWaiter this thread =>
    obtain ⟨s1, hremove, hr⟩ := removeWaiterImpl_spec h.standing.books hallowed
    obtain ⟨hs, hexcept, hguard⟩ := hr.leaves h hallowed
    simp only [perform, removeWaiter, hremove, bind_eq_bind, bind_some] at hrun
    exact guarded_exact hs hexcept hguard hrun
  | removeWaiterByKey this key isKernel =>
    cases hfind : s.findHeldLock this key isKernel with
    | none =>
      simp only [perform, removeWaiterByKey, hfind, map_some, Option.some.injEq] at hrun
      exact hrun ▸ h
    | some i =>
      obtain ⟨next, more, s1, hpass, hs, hexcept, hguard⟩ :=
        passLock_exact h (findHeldLock_eq_some hfind).1
      rw [perform_removeWaiterByKey hfind hpass] at hrun
      exact guarded_exact hs hexcept hguard hrun
  | setBasePriority this value =>
    obtain ⟨hs, hexcept⟩ := setBase_exact this h value
    rw [perform, setBasePriority] at hrun
    obtain ⟨-, hrun⟩ := assert_bind_eq_some.mp hrun
    exact (restorePriority_restored fuel hs hexcept hrun).exact
  | increaseBasePriority this priority =>
    obtain ⟨hs, hexcept⟩ := setBase_exact this h priority
    rw [perform, increaseBasePriority] at hrun
    obtain ⟨-, hrun⟩ := assert_bind_eq_some.mp hrun
    split at hrun
    · exact (restorePriority_restored fuel hs hexcept hrun).exact
    · exact some.inj hrun ▸ h
  | setAddressKey this key isKernel =>
    rw [perform, setAddressKey] at hrun
    obtain ⟨hwait, hrun⟩ := assert_bind_eq_some.mp hrun
    obtain rfl := some.inj hrun
    refine h.congr rfl rfl rfl rfl rfl rfl rfl (fun w hw => ?_) fun _ _ ht => ht
    have hne : w ≠ this := fun hwt => hw (hwt ▸ hwait)
    exact ⟨update_of_ne hne _ _, update_of_ne hne _ _⟩
  | setConditionVariable this tree address cvKey =>
    obtain ⟨condvar, heq⟩ :=
      setConditionVariable_eq this tree address cvKey hallowed.1 hallowed.2
    rw [perform, heq] at hrun
    obtain rfl := some.inj hrun
    refine h.congr rfl rfl rfl rfl rfl rfl rfl (fun w hw => ?_) fun w hw ht => ?_
    · have hne : w ≠ this := fun hwt => hw (hwt ▸ hallowed.1)
      exact ⟨update_of_ne hne _ _, update_of_ne hne _ _⟩
    · have hne : w ≠ this := fun hwt =>
        hw (hwt ▸ h.standing.books.linked.getLockOwner_eq_none.mpr hallowed.1)
      exact (update_of_ne hne _ _).trans ht
  | clearConditionVariable this =>
    obtain ⟨condvar, heq⟩ := clearConditionVariable_eq s this
    rw [perform, heq] at hrun
    obtain rfl := some.inj hrun
    refine h.congr rfl rfl rfl rfl rfl rfl rfl (fun _ _ => ⟨rfl, rfl⟩) fun w _ ht => ?_
    by_cases hwt : w = this
    · simp [hwt]
    · exact (update_of_ne hwt _ _).trans ht

/-- **Every allowed operation returns.** -/
theorem step_returns (h : Threads.Exact s) (hallowed : Allowed s r) : ∃ s', Step s r s' := by
  suffices hrun : ∃ fuel s', perform fuel s r = some s' by
    obtain ⟨fuel, s', hrun⟩ := hrun
    exact ⟨s', hallowed, fuel, hrun⟩
  cases r with
  | addWaiter this thread =>
    obtain ⟨s1, hadd, hr⟩ := addWaiterImpl_spec this h.standing.books hallowed.1 hallowed.2
    obtain ⟨hs, hexcept, -⟩ := hr.enters h
      (h.standing.books.linked.getLockOwner_eq_none.mpr hallowed.1) hallowed.2
    obtain ⟨fuel, s', hrun⟩ := guarded_returns (s1.priority thread < s1.priority this) hs hexcept
    exact ⟨fuel, s', by simpa [perform, addWaiter, hadd] using hrun⟩
  | removeWaiter this thread =>
    obtain ⟨s1, hremove, hr⟩ := removeWaiterImpl_spec h.standing.books hallowed
    obtain ⟨hs, hexcept, -⟩ := hr.leaves h hallowed
    obtain ⟨fuel, s', hrun⟩ := guarded_returns
      (s1.priority this = s1.priority thread ∧ s1.priority this < s1.basePriority this) hs hexcept
    exact ⟨fuel, s', by simpa [perform, removeWaiter, hremove] using hrun⟩
  | removeWaiterByKey this key isKernel =>
    cases hfind : s.findHeldLock this key isKernel with
    | none => exact ⟨0, s, by simp [perform, removeWaiterByKey, hfind]⟩
    | some i =>
      obtain ⟨next, more, s1, hpass, hs, hexcept, -⟩ :=
        passLock_exact h (findHeldLock_eq_some hfind).1
      obtain ⟨fuel, s', hrun⟩ := guarded_returns
        (s1.priority this = s1.priority next ∧ s1.priority this < s1.basePriority this)
        hs hexcept
      exact ⟨fuel, s', (perform_removeWaiterByKey hfind hpass).trans hrun⟩
  | setBasePriority this value =>
    obtain ⟨hs, hexcept⟩ := setBase_exact this h value
    obtain ⟨fuel, s', hrun, -⟩ := restorePriority_ends hs hexcept
    exact ⟨fuel, s', assert_bind_eq_some.mpr ⟨hallowed, hrun⟩⟩
  | increaseBasePriority this priority =>
    obtain ⟨hs, hexcept⟩ := setBase_exact this h priority
    obtain ⟨fuel, s', hrun, -⟩ := restorePriority_ends hs hexcept
    by_cases hless : s.basePriority this > priority
    · exact ⟨fuel, s', assert_bind_eq_some.mpr ⟨hallowed, (if_pos hless).trans hrun⟩⟩
    · exact ⟨0, s, assert_bind_eq_some.mpr ⟨hallowed, if_neg hless⟩⟩
  | setAddressKey this key isKernel =>
    exact ⟨0, _, assert_bind_eq_some.mpr ⟨hallowed, rfl⟩⟩
  | setConditionVariable this tree address cvKey =>
    obtain ⟨condvar, heq⟩ :=
      setConditionVariable_eq this tree address cvKey hallowed.1 hallowed.2
    exact ⟨0, _, heq⟩
  | clearConditionVariable this => exact ⟨0, _, rfl⟩

theorem run_exact {prio : T → Int} {rs : List (Request T)} (h : Path Step (start prio) rs s) :
    Threads.Exact s :=
  h.invariant Threads.Exact (fun _ _ _ _ hs hstep => step_exact hs hstep) (start_exact prio)

/-- **Inheritance is exact**: a thread's priority is the least of its base priority and of the
priorities of all waiters of the locks it holds, every held lock has a waiter, a waiter names the
lock it is stored in, and the kernel waiters are counted. -/
structure InheritsExactly (s : Threads T) : Prop where
  priority : ∀ t, IsLeast ({s.basePriority t} ∪ {p | ∃ i ∈ s.heldLockInfoList t,
    ∃ w ∈ (s.lockInfo i).tree, s.priority w = p}) (s.priority t)
  occupied : ∀ t, ∀ i ∈ s.heldLockInfoList t, (s.lockInfo i).tree ≠ []
  waiting : ∀ t, ∀ i ∈ s.heldLockInfoList t, ∀ w ∈ (s.lockInfo i).tree, s.waitingLockInfo w = some i
  kernelWaiters : ∀ t, s.numKernelWaiters t = ((s.heldLockInfoList t).map fun i =>
    if (s.lockInfo i).isKernelAddressKey then ((s.lockInfo i).tree.length : Int) else 0).sum

omit [DecidableEq T] in
theorem Threads.Exact.inheritsExactly (h : Threads.Exact s) : InheritsExactly s where
  priority t := by
    have hlevel := h.inherited t
    have hlinked := h.standing.books.linked
    constructor
    · rcases hlevel.reached with hb | ⟨w, hw, heq⟩
      · exact .inl hb
      · obtain ⟨i, hi, hmem⟩ := hlinked.getLockOwner_eq_some.mp hw
        exact .inr ⟨i, hi, w, hmem, heq⟩
    · intro p hp
      rcases hp with hp | ⟨i, hi, w, hw, rfl⟩
      · exact (Set.mem_singleton_iff.mp hp) ▸ hlevel.le_base
      · exact hlevel.le_waiting w (hlinked.getLockOwner_eq_some.mpr ⟨i, hi, hw⟩)
  occupied t i hi := h.standing.books.linked.occupied t i hi (by simp)
  waiting t i hi := (h.standing.books.linked.info t i hi).waiting
  kernelWaiters t := by
    rw [h.standing.books.counted t, Threads.kernelWaiters]
    refine congrArg List.sum (map_congr_left fun i hi => ?_)
    rw [LockInfo.kernelWaiters, (h.standing.books.linked.info t i hi).count]

/-! ## 6. The main results -/

/-- **Priority inheritance is exact** after every run of the operations, on whatever graph of
waiters they build, and every further call that is allowed returns. -/
theorem inheritance_exact (prio : T → Int) (rs : List (Request T)) (s : Threads T)
    (h : Path Step (start prio) rs s) :
    InheritsExactly s ∧ ∀ r, Allowed s r → ∃ s', Step s r s' :=
  ⟨(run_exact h).inheritsExactly, fun _ => step_returns (run_exact h)⟩

/-- Two threads that wait for each other. -/
def deadlock : List (Request Bool) := [.addWaiter false true, .addWaiter true false]

theorem deadlock_path : ∃ s, Path Step (start fun t : Bool => if t then 10 else 20) deadlock s ∧
    s.getLockOwner true = some false ∧ s.getLockOwner false = some true := by
  refine ⟨_, .cons ⟨⟨rfl, rfl⟩, 3, rfl⟩ (.cons ⟨⟨rfl, rfl⟩, 3, rfl⟩ (.nil _)), ?_, ?_⟩ <;> rfl

theorem inheritance_exact_deadlock : ∃ s : Threads Bool,
    s.getLockOwner true = some false ∧ s.getLockOwner false = some true ∧ InheritsExactly s := by
  obtain ⟨s, hpath, htrue, hfalse⟩ := deadlock_path
  exact ⟨s, htrue, hfalse, (inheritance_exact _ deadlock s hpath).1⟩

/-- **`RestorePriority` terminates** on every graph of threads whose books are in order and in
which every thread but the first stands at the priority it inherits. -/
theorem restorePriority_terminates (s : Threads T) (thread : T) (h : Threads.Standing s)
    (hexcept : InheritedExcept s thread) :
    ∃ fuel s', restorePriority fuel s (some thread) = some s' ∧ Inherited s' := by
  obtain ⟨fuel, s', hrun, hr⟩ := restorePriority_ends h hexcept
  exact ⟨fuel, s', hrun, hr.inherited⟩

theorem restorePriority_terminates_deadlock : ∃ s : Threads Bool,
    s.getLockOwner true = some false ∧ s.getLockOwner false = some true ∧ ∃ fuel s', restorePriority fuel
        { s with basePriority := update s.basePriority false 5 } (some false) = some s' := by
  obtain ⟨s, hpath, htrue, hfalse⟩ := deadlock_path
  obtain ⟨hs, hexcept⟩ := setBase_exact false (run_exact hpath) 5
  obtain ⟨fuel, s', hrun, -⟩ := restorePriority_terminates _ false hs hexcept
  exact ⟨s, htrue, hfalse, fuel, s', hrun⟩

end Yuzu.Kernel.PriorityInheritance
