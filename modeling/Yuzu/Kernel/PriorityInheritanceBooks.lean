/-
  File:      Yuzu/Kernel/PriorityInheritanceBooks.lean
  Subject:   The books of waiters and held locks: what `AddWaiterImpl`, `RemoveWaiterImpl` and the
             passing on of a lock keep, and whom they make a waiter of whom.
-/
import Yuzu.Kernel.PriorityInheritance
import Mathlib.Algebra.Order.BigOperators.Group.List

namespace Yuzu.Kernel.PriorityInheritance

open List Option Function

open Function (update)

variable {T : Type} [DecidableEq T]

/-- The waiters of a lock info that count for the kernel. -/
def LockInfo.kernelWaiters (info : LockInfo T) : Int :=
  if info.isKernelAddressKey then info.waiterCount else 0

omit [DecidableEq T] in
theorem LockInfo.kernelWaiters_nonneg (info : LockInfo T) : 0 ≤ info.kernelWaiters := by
  rw [kernelWaiters]
  split <;> omega

namespace Threads

variable {s s' : Threads T} {t u w thread this : T} {i j n : Nat} {key : Nat} {isKernel : Bool}

/-! ## 1. Linked books -/

/-- A lock info in a thread's held list: its owner, its count, and the waiters in order, each of
which names it and has its key. -/
structure InfoOk (s : Threads T) (t : T) (i : Nat) : Prop where
  owner : (s.lockInfo i).owner = some t
  count : (s.lockInfo i).waiterCount = (s.lockInfo i).tree.length
  nodup : (s.lockInfo i).tree.Nodup
  sorted : (s.lockInfo i).tree.Pairwise fun v w => s.priority v ≤ s.priority w
  waiting : ∀ w ∈ (s.lockInfo i).tree, s.waitingLockInfo w = some i
  key : ∀ w ∈ (s.lockInfo i).tree, s.addressKey w = (s.lockInfo i).addressKey ∧
    s.isKernelAddressKey w = (s.lockInfo i).isKernelAddressKey

/-- **Linked books**: held locks are in order and have waiters, except one that is being worked
on, and who names a lock info waits in it. -/
structure Linked (s : Threads T) (opened : Option Nat) : Prop where
  info : ∀ t, ∀ i ∈ s.heldLockInfoList t, InfoOk s t i
  occupied : ∀ t, ∀ i ∈ s.heldLockInfoList t, opened ≠ some i → (s.lockInfo i).tree ≠ []
  held : ∀ t, (s.heldLockInfoList t).Nodup
  listed : ∀ w i, s.waitingLockInfo w = some i → ∃ t, i ∈ s.heldLockInfoList t ∧ w ∈ (s.lockInfo i).tree
  fresh : ∀ t, ∀ i ∈ s.heldLockInfoList t, i < s.allocated

/-- What the books do not touch. -/
structure SameThreads (s s' : Threads T) : Prop where
  basePriority : s'.basePriority = s.basePriority
  priority : s'.priority = s.priority
  addressKey : s'.addressKey = s.addressKey
  isKernelAddressKey : s'.isKernelAddressKey = s.isKernelAddressKey
  condvarTree : s'.condvarTree = s.condvarTree
  condvarKey : s'.condvarKey = s.condvarKey
  condvar : s'.condvar = s.condvar

omit [DecidableEq T] in
theorem SameThreads.trans {s'' : Threads T} (h : SameThreads s s') (h' : SameThreads s' s'') :
    SameThreads s s'' where
  basePriority := h'.basePriority.trans h.basePriority
  priority := h'.priority.trans h.priority
  addressKey := h'.addressKey.trans h.addressKey
  isKernelAddressKey := h'.isKernelAddressKey.trans h.isKernelAddressKey
  condvarTree := h'.condvarTree.trans h.condvarTree
  condvarKey := h'.condvarKey.trans h.condvarKey
  condvar := h'.condvar.trans h.condvar

omit [DecidableEq T] in
theorem InfoOk.congr (h : InfoOk s t i) (hinfo : s'.lockInfo i = s.lockInfo i)
    (hwait : ∀ w ∈ (s.lockInfo i).tree, s'.priority w = s.priority w ∧
      s'.waitingLockInfo w = s.waitingLockInfo w ∧ s'.addressKey w = s.addressKey w ∧
      s'.isKernelAddressKey w = s.isKernelAddressKey w) : InfoOk s' t i where
  owner := hinfo ▸ h.owner
  count := hinfo ▸ h.count
  nodup := hinfo ▸ h.nodup
  sorted := by
    rw [hinfo]
    refine h.sorted.imp_of_mem fun {v w} hv hw hle => ?_
    rw [(hwait v hv).1, (hwait w hw).1]
    exact hle
  waiting w hw := by
    rw [hinfo] at hw
    rw [(hwait w hw).2.1]
    exact h.waiting w hw
  key w hw := by
    rw [hinfo] at hw ⊢
    rw [(hwait w hw).2.2.1, (hwait w hw).2.2.2]
    exact h.key w hw

omit [DecidableEq T] in
theorem Linked.holder_eq {o : Option Nat} (h : Linked s o) (hi : i ∈ s.heldLockInfoList t)
    (hi' : i ∈ s.heldLockInfoList u) : t = u :=
  some.inj ((h.info t i hi).owner.symm.trans (h.info u i hi').owner)

omit [DecidableEq T] in
theorem Linked.getLockOwner_eq_some {o : Option Nat} (h : Linked s o) :
    s.getLockOwner w = some t ↔ ∃ i ∈ s.heldLockInfoList t, w ∈ (s.lockInfo i).tree := by
  rw [getLockOwner, bind_eq_some_iff]
  constructor
  · rintro ⟨i, hi, howner⟩
    obtain ⟨u, hu, hw⟩ := h.listed w i hi
    have hut : u = t := some.inj ((h.info u i hu).owner.symm.trans howner)
    exact ⟨i, hut ▸ hu, hw⟩
  · rintro ⟨i, hi, hw⟩
    exact ⟨i, (h.info t i hi).waiting w hw, (h.info t i hi).owner⟩

omit [DecidableEq T] in
theorem Linked.getLockOwner_eq_none {o : Option Nat} (h : Linked s o) :
    s.getLockOwner w = none ↔ s.waitingLockInfo w = none := by
  rw [getLockOwner]
  cases hw : s.waitingLockInfo w with
  | none => simp
  | some i =>
    obtain ⟨u, hu, -⟩ := h.listed w i hw
    simp [(h.info u i hu).owner]

/-! ## 2. Kernel waiters -/

/-- The waiters on the kernel keys among the locks a thread holds. -/
def kernelWaiters (s : Threads T) (t : T) : Int :=
  ((s.heldLockInfoList t).map fun i => (s.lockInfo i).kernelWaiters).sum

/-- `m_num_kernel_waiters` counts the waiters on kernel keys. -/
def Counted (s : Threads T) : Prop := ∀ t, s.numKernelWaiters t = s.kernelWaiters t

omit [DecidableEq T] in
theorem kernelWaiters_congr (hheld : s'.heldLockInfoList t = s.heldLockInfoList t)
    (hinfo : ∀ i ∈ s.heldLockInfoList t, (s'.lockInfo i).kernelWaiters = (s.lockInfo i).kernelWaiters) :
    s'.kernelWaiters t = s.kernelWaiters t := by
  rw [kernelWaiters, kernelWaiters, hheld]
  exact congrArg List.sum (map_congr_left hinfo)

omit [DecidableEq T] in
theorem kernelWaiters_erase (hi : i ∈ s.heldLockInfoList t) :
    s.kernelWaiters t = (s.lockInfo i).kernelWaiters +
      (((s.heldLockInfoList t).erase i).map fun i => (s.lockInfo i).kernelWaiters).sum :=
  (sum_map_erase (fun i => (s.lockInfo i).kernelWaiters) hi).symm

omit [DecidableEq T] in
theorem kernelWaiters_info (hnd : (s.heldLockInfoList t).Nodup)
    (hheld : s'.heldLockInfoList t = s.heldLockInfoList t)
    (hinfo : ∀ j, j ≠ i → s'.lockInfo j = s.lockInfo j) :
    s'.kernelWaiters t = s.kernelWaiters t + if i ∈ s.heldLockInfoList t then
      (s'.lockInfo i).kernelWaiters - (s.lockInfo i).kernelWaiters else 0 := by
  by_cases hi : i ∈ s.heldLockInfoList t
  · rw [kernelWaiters_erase hi, kernelWaiters_erase (s := s') (hheld ▸ hi), if_pos hi, hheld]
    have hrest : ((s.heldLockInfoList t).erase i).map (fun j => (s'.lockInfo j).kernelWaiters) =
        ((s.heldLockInfoList t).erase i).map fun j => (s.lockInfo j).kernelWaiters :=
      map_congr_left fun j hj => by rw [hinfo j (hnd.mem_erase_iff.mp hj).1]
    rw [hrest]
    omega
  · rw [if_neg hi, add_zero]
    exact kernelWaiters_congr hheld fun j hj => by rw [hinfo j fun h => hi (h ▸ hj)]

omit [DecidableEq T] in
theorem InfoOk.kernelWaiters_eq_zero (h : InfoOk s t i) (hempty : (s.lockInfo i).tree = []) :
    (s.lockInfo i).kernelWaiters = 0 := by
  rw [LockInfo.kernelWaiters, h.count, hempty]
  split <;> rfl

/-! ## 3. A lock info is found or made -/

omit [DecidableEq T] in
theorem findHeldLock_eq_some (h : s.findHeldLock this key isKernel = some i) :
    i ∈ s.heldLockInfoList this ∧ (s.lockInfo i).addressKey = key ∧
      (s.lockInfo i).isKernelAddressKey = isKernel := by
  refine ⟨mem_of_find?_eq_some h, ?_⟩
  simpa using List.find?_some h

/-- What the search for a lock info leaves: an open one with the key. -/
structure Opened (s s' : Threads T) (this : T) (key : Nat) (isKernel : Bool) (i : Nat) : Prop where
  linked : Linked s' (some i)
  counts : ∀ t, s'.kernelWaiters t = s.kernelWaiters t
  mem : i ∈ s'.heldLockInfoList this
  key : (s'.lockInfo i).addressKey = key
  isKernel : (s'.lockInfo i).isKernelAddressKey = isKernel
  same : SameThreads s s'
  numKernelWaiters : s'.numKernelWaiters = s.numKernelWaiters
  waiting : s'.waitingLockInfo = s.waitingLockInfo
  lockOwner : ∀ w, s'.getLockOwner w = s.getLockOwner w

theorem findOrCreateHeldLock_spec (this : T) (key : Nat) (isKernel : Bool) (h : Linked s none) :
    Opened s (s.findOrCreateHeldLock this key isKernel).2 this key isKernel
      (s.findOrCreateHeldLock this key isKernel).1 := by
  unfold findOrCreateHeldLock
  cases hfind : s.findHeldLock this key isKernel with
  | some i =>
    obtain ⟨hmem, hkey, hkernel⟩ := findHeldLock_eq_some hfind
    exact {
      linked := ⟨h.info, fun t j hj _ => h.occupied t j hj (by simp), h.held, h.listed, h.fresh⟩
      counts := fun _ => rfl
      mem := hmem
      key := hkey
      isKernel := hkernel
      same := ⟨rfl, rfl, rfl, rfl, rfl, rfl, rfl⟩
      numKernelWaiters := rfl
      waiting := rfl
      lockOwner := fun _ => rfl }
  | none =>
    simp only [create, addHeldLock, update_idem, update_self]
    have hold : ∀ t, ∀ i ∈ s.heldLockInfoList t, i ≠ s.allocated :=
      fun t i hi => Nat.ne_of_lt (h.fresh t i hi)
    have hnew : s.allocated ∉ s.heldLockInfoList this := fun hi => hold this _ hi rfl
    have hmem : ∀ {t j}, j ∈ update s.heldLockInfoList this (s.allocated :: s.heldLockInfoList this) t →
          (j = s.allocated ∧ t = this) ∨ j ∈ s.heldLockInfoList t := by
      intro t j hj
      by_cases ht : t = this
      · subst ht
        rw [update_self] at hj
        exact (mem_cons.mp hj).imp_left fun hj => ⟨hj, rfl⟩
      · rw [update_of_ne ht] at hj
        exact .inr hj
    refine ⟨⟨fun t j hj => ?_, fun t j hj hne => ?_, fun t => ?_, fun w j hw => ?_,
      fun t j hj => ?_⟩, fun t => ?_, ?_, ?_, ?_, ⟨rfl, rfl, rfl, rfl, rfl, rfl, rfl⟩, rfl, rfl,
      fun w => ?_⟩
    · rcases hmem hj with ⟨rfl, rfl⟩ | hj
      · exact ⟨by simp, by simp, by simp, by simp, by simp, by simp⟩
      · exact (h.info t j hj).congr (update_of_ne (hold t j hj) _ _)
          fun _ _ => ⟨rfl, rfl, rfl, rfl⟩
    · rcases hmem hj with ⟨rfl, rfl⟩ | hj
      · exact absurd rfl hne
      · simp only [update_of_ne (hold t j hj)]
        exact h.occupied t j hj (by simp)
    · by_cases ht : t = this
      · subst ht
        simpa using ⟨hnew, h.held t⟩
      · simpa [update_of_ne ht] using h.held t
    · obtain ⟨t, ht, hw⟩ := h.listed w j hw
      refine ⟨t, ?_, by simpa [update_of_ne (hold t j ht)] using hw⟩
      by_cases htt : t = this
      · subst htt
        simpa using .inr ht
      · simpa [update_of_ne htt] using ht
    · rcases hmem hj with ⟨rfl, rfl⟩ | hj
      · exact Nat.lt_succ_self _
      · exact (h.fresh t j hj).trans (Nat.lt_succ_self _)
    · have hmap : ∀ t, (s.heldLockInfoList t).map (fun i => (update s.lockInfo s.allocated
          ⟨[], key, some this, 0, isKernel⟩ i).kernelWaiters) =
          (s.heldLockInfoList t).map fun i => (s.lockInfo i).kernelWaiters :=
        fun t => map_congr_left fun i hi => by rw [update_of_ne (hold t i hi)]
      by_cases ht : t = this
      · subst ht
        simp only [kernelWaiters, update_self, map_cons, sum_cons]
        rw [hmap]
        simp [LockInfo.kernelWaiters]
      · simp only [kernelWaiters, update_of_ne ht]
        rw [hmap]
    · simp
    · simp
    · simp
    · cases hw : s.waitingLockInfo w with
      | none => simp [getLockOwner, hw]
      | some j =>
        obtain ⟨t, ht, -⟩ := h.listed w j hw
        simp [getLockOwner, hw, update_of_ne (hold t j ht)]

/-! ## 4. Waiters come and go -/

omit [DecidableEq T] in
theorem compareWaiter_ne_eq (s : Threads T) (v w : T) : s.compareWaiter v w ≠ .eq := by
  rw [compareWaiter]
  split <;> simp

omit [DecidableEq T] in
theorem insertWaiter_perm (s : Threads T) (w : T) (tree : List T) :
    (treeInsert (s.compareWaiter w) w tree).Perm (w :: tree) :=
  treeInsert_perm fun x _ => s.compareWaiter_ne_eq w x

omit [DecidableEq T] in
theorem insertWaiter_sorted {tree : List T}
    (h : tree.Pairwise fun v w => s.priority v ≤ s.priority w) (w : T) :
    (treeInsert (s.compareWaiter w) w tree).Pairwise fun v w => s.priority v ≤ s.priority w := by
  refine treeInsert_pairwise (fun _ _ _ => le_trans) h (fun x _ => s.compareWaiter_ne_eq w x) ?_ ?_
  · intro x _ hx
    rw [compareWaiter] at hx
    split at hx
    · rename_i hlt
      exact hlt.le
    · simp at hx
  · intro x _ hx
    rw [compareWaiter] at hx
    split at hx
    · simp at hx
    · rename_i hle
      exact not_lt.mp hle

/-- **A waiter enters a held lock.** -/
theorem infoAddWaiter_spec (h : Linked s (some i)) (hi : i ∈ s.heldLockInfoList u)
    (hw : s.waitingLockInfo w = none) (hkey : s.addressKey w = (s.lockInfo i).addressKey)
    (hkernel : s.isKernelAddressKey w = (s.lockInfo i).isKernelAddressKey) :
    ∃ s', s.infoAddWaiter i w = some s' ∧ Linked s' none ∧ SameThreads s s' ∧
      s'.numKernelWaiters = s.numKernelWaiters ∧
      (∀ t, s'.kernelWaiters t = s.kernelWaiters t +
        if t = u ∧ s.isKernelAddressKey w = true then 1 else 0) ∧
      ∀ v, s'.getLockOwner v = if v = w then some u else s.getLockOwner v := by
  have hperm := s.insertWaiter_perm w (s.lockInfo i).tree
  have hnot : ∀ t, ∀ j ∈ s.heldLockInfoList t, w ∉ (s.lockInfo j).tree := by
    intro t j hj hmem
    have := (h.info t j hj).waiting w hmem
    simp [hw] at this
  refine ⟨_, assert_bind_of hw, ⟨fun t j hj => ?_, fun t j hj _ => ?_, h.held, fun v j hv => ?_,
    h.fresh⟩, ⟨rfl, rfl, rfl, rfl, rfl, rfl, rfl⟩, rfl, fun t => ?_, fun v => ?_⟩
  · have hinfo := h.info t j hj
    by_cases hji : j = i
    · subst hji
      constructor <;> simp only [update_self]
      · exact hinfo.owner
      · rw [hperm.length_eq, length_cons, hinfo.count]
      · exact hperm.nodup_iff.mpr (nodup_cons.mpr ⟨hnot t j hj, hinfo.nodup⟩)
      · exact insertWaiter_sorted hinfo.sorted w
      · intro v hv
        by_cases hvw : v = w
        · rw [hvw, update_self]
        · rw [update_of_ne hvw]
          exact hinfo.waiting v ((mem_cons.mp (hperm.mem_iff.mp hv)).resolve_left hvw)
      · intro v hv
        rcases mem_cons.mp (hperm.mem_iff.mp hv) with rfl | hv
        · exact ⟨hkey, hkernel⟩
        · exact hinfo.key v hv
    · refine hinfo.congr (update_of_ne hji _ _) fun v hv => ⟨rfl, ?_, rfl, rfl⟩
      have hvw : v ≠ w := fun hvw => hnot t j hj (hvw ▸ hv)
      exact update_of_ne hvw _ _
  · by_cases hji : j = i
    · subst hji
      simp only [update_self]
      intro hnil
      rw [hnil] at hperm
      exact cons_ne_nil _ _ hperm.symm.eq_nil
    · simp only [update_of_ne hji]
      exact h.occupied t j hj fun heq => hji (some.inj heq).symm
  · by_cases hvw : v = w
    · subst hvw
      simp only [update_self, Option.some.injEq] at hv
      subst hv
      refine ⟨u, hi, ?_⟩
      simp only [update_self]
      exact hperm.mem_iff.mpr mem_cons_self
    · simp only [update_of_ne hvw] at hv
      obtain ⟨t, ht, hmem⟩ := h.listed v j hv
      refine ⟨t, ht, ?_⟩
      by_cases hji : j = i
      · subst hji
        simp only [update_self]
        exact hperm.mem_iff.mpr (mem_cons_of_mem _ hmem)
      · simpa only [update_of_ne hji] using hmem
  · refine Eq.trans (kernelWaiters_info (i := i) (h.held t) rfl
      fun j hj => update_of_ne hj _ _) ?_
    simp only [update_self, LockInfo.kernelWaiters, ← hkernel]
    by_cases ht : t = u
    · subst ht
      rw [if_pos hi]
      by_cases hk : s.isKernelAddressKey w = true <;> simp [hk]
    · rw [if_neg fun hit => ht (h.holder_eq hit hi), if_neg fun hc => ht hc.1]
  · rw [getLockOwner, getLockOwner]
    by_cases hvw : v = w
    · subst hvw
      simp [(h.info u i hi).owner]
    · simp only [update_of_ne hvw, if_neg hvw]
      refine bind_congr fun j _ => ?_
      by_cases hji : j = i
      · rw [hji, update_self]
      · rw [update_of_ne hji]

/-- **A waiter leaves a held lock**, which may stay behind without waiters. -/
theorem infoRemoveWaiter_spec (h : Linked s none) (hi : i ∈ s.heldLockInfoList u)
    (hw : w ∈ (s.lockInfo i).tree) :
    Linked (s.infoRemoveWaiter i w).2 (some i) ∧ SameThreads s (s.infoRemoveWaiter i w).2 ∧
      ((s.infoRemoveWaiter i w).1 = true ↔ ((s.infoRemoveWaiter i w).2.lockInfo i).tree = []) ∧
      (∀ t, (s.infoRemoveWaiter i w).2.kernelWaiters t = s.kernelWaiters t -
        if t = u ∧ s.isKernelAddressKey w = true then 1 else 0) ∧
      ∀ v, (s.infoRemoveWaiter i w).2.getLockOwner v =
        if v = w then none else s.getLockOwner v := by
  have hinfo := h.info u i hi
  have hlen : ((s.lockInfo i).tree.erase w).length = (s.lockInfo i).waiterCount - 1 := by
    rw [length_erase_of_mem hw, hinfo.count]
  have hpos : 0 < (s.lockInfo i).waiterCount := hinfo.count ▸ length_pos_of_mem hw
  have hother : ∀ t, ∀ j ∈ s.heldLockInfoList t, j ≠ i → w ∉ (s.lockInfo j).tree := by
    intro t j hj hji hmem
    exact hji (some.inj (((h.info t j hj).waiting w hmem).symm.trans (hinfo.waiting w hw)))
  refine ⟨⟨fun t j hj => ?_, fun t j hj hne => ?_, h.held, fun v j hv => ?_, h.fresh⟩,
    ⟨rfl, rfl, rfl, rfl, rfl, rfl, rfl⟩, ?_, fun t => ?_, fun v => ?_⟩
  · by_cases hji : j = i
    · subst hji
      have htu : t = u := h.holder_eq hj hi
      subst htu
      constructor <;> simp only [infoRemoveWaiter, update_self]
      · exact hinfo.owner
      · exact hlen.symm
      · exact hinfo.nodup.erase w
      · exact hinfo.sorted.sublist erase_sublist
      · intro v hv
        obtain ⟨hvw, hv⟩ := hinfo.nodup.mem_erase_iff.mp hv
        rw [update_of_ne hvw]
        exact hinfo.waiting v hv
      · exact fun v hv => hinfo.key v (mem_of_mem_erase hv)
    · refine (h.info t j hj).congr (update_of_ne hji _ _) fun v hv => ⟨rfl, ?_, rfl, rfl⟩
      have hvw : v ≠ w := fun hvw => hother t j hj hji (hvw ▸ hv)
      exact update_of_ne hvw _ _
  · have hji : j ≠ i := fun hji => hne (congrArg some hji.symm)
    simp only [infoRemoveWaiter, update_of_ne hji]
    exact h.occupied t j hj (by simp)
  · simp only [infoRemoveWaiter] at hv
    by_cases hvw : v = w
    · rw [hvw, update_self] at hv
      simp at hv
    · rw [update_of_ne hvw] at hv
      obtain ⟨t, ht, hmem⟩ := h.listed v j hv
      refine ⟨t, ht, ?_⟩
      by_cases hji : j = i
      · subst hji
        simp only [infoRemoveWaiter, update_self]
        exact (mem_erase_of_ne hvw).mpr hmem
      · simpa only [infoRemoveWaiter, update_of_ne hji] using hmem
  · simp only [infoRemoveWaiter, update_self, decide_eq_true_eq]
    rw [← hlen, length_eq_zero_iff]
  · refine Eq.trans (kernelWaiters_info (i := i) (h.held t) rfl
      fun j hj => update_of_ne hj _ _) ?_
    simp only [infoRemoveWaiter, update_self, LockInfo.kernelWaiters, ← (hinfo.key w hw).2]
    by_cases ht : t = u
    · subst ht
      rw [if_pos hi]
      by_cases hk : s.isKernelAddressKey w = true
      · simp only [hk, if_true, and_self]
        omega
      · simp [hk]
    · rw [if_neg fun hit => ht (h.holder_eq hit hi), if_neg fun hc => ht hc.1]
      omega
  · rw [getLockOwner, getLockOwner]
    by_cases hvw : v = w
    · simp [infoRemoveWaiter, hvw]
    · simp only [infoRemoveWaiter, update_of_ne hvw, if_neg hvw]
      refine bind_congr fun j _ => ?_
      by_cases hji : j = i
      · rw [hji, update_self]
      · rw [update_of_ne hji]

theorem eraseHeldLock_spec (h : Linked s (some i)) (hi : i ∈ s.heldLockInfoList u)
    (hempty : (s.lockInfo i).tree = []) :
    Linked (s.eraseHeldLock u i) none ∧ ∀ t, (s.eraseHeldLock u i).kernelWaiters t = s.kernelWaiters t := by
  have hmem : ∀ {t j}, j ∈ update s.heldLockInfoList u ((s.heldLockInfoList u).erase i) t ↔
      j ∈ s.heldLockInfoList t ∧ j ≠ i := by
    intro t j
    by_cases ht : t = u
    · subst ht
      rw [update_self, (h.held t).mem_erase_iff, and_comm]
    · rw [update_of_ne ht]
      exact ⟨fun hj => ⟨hj, fun hji => ht (h.holder_eq hj (hji ▸ hi))⟩, fun hj => hj.1⟩
  refine ⟨⟨fun t j hj => ?_, fun t j hj _ => ?_, fun t => ?_, fun v j hv => ?_,
    fun t j hj => h.fresh t j (hmem.mp hj).1⟩, fun t => ?_⟩
  · exact (h.info t j (hmem.mp hj).1).congr rfl fun _ _ => ⟨rfl, rfl, rfl, rfl⟩
  · exact h.occupied t j (hmem.mp hj).1 fun heq => (hmem.mp hj).2 (some.inj heq).symm
  · by_cases ht : t = u
    · subst ht
      simpa [eraseHeldLock] using (h.held t).erase i
    · simpa [eraseHeldLock, update_of_ne ht] using h.held t
  · obtain ⟨t, ht, hv⟩ := h.listed v j hv
    refine ⟨t, hmem.mpr ⟨ht, ?_⟩, hv⟩
    intro hji
    rw [hji, hempty] at hv
    exact not_mem_nil hv
  · by_cases ht : t = u
    · subst ht
      rw [kernelWaiters_erase hi, (h.info t i hi).kernelWaiters_eq_zero hempty, zero_add]
      simp [eraseHeldLock, kernelWaiters]
    · exact kernelWaiters_congr (update_of_ne ht _ _) fun _ _ => rfl

/-- A lock info with waiters goes over to another thread. -/
theorem moveHeldLock_spec (h : Linked s (some i)) (hi : i ∈ s.heldLockInfoList u)
    (hne : (s.lockInfo i).tree ≠ []) (next : T) :
    Linked ((s.eraseHeldLock u i).addHeldLock next i) none ∧
      (∀ t, ((s.eraseHeldLock u i).addHeldLock next i).kernelWaiters t = s.kernelWaiters t -
        (if t = u then (s.lockInfo i).kernelWaiters else 0) +
        if t = next then (s.lockInfo i).kernelWaiters else 0) ∧
      ∀ v, ((s.eraseHeldLock u i).addHeldLock next i).getLockOwner v =
        if s.waitingLockInfo v = some i then some next else s.getLockOwner v := by
  have hheld : ∀ t, ((s.eraseHeldLock u i).addHeldLock next i).heldLockInfoList t =
      if t = next then i :: (s.heldLockInfoList t).erase i
      else (s.heldLockInfoList t).erase i := by
    intro t
    have herase : (update s.heldLockInfoList u ((s.heldLockInfoList u).erase i)) t =
        (s.heldLockInfoList t).erase i := by
      by_cases ht : t = u
      · rw [ht, update_self]
      · rw [update_of_ne ht, erase_of_not_mem fun hit => ht (h.holder_eq hit hi)]
    by_cases ht : t = next
    · subst ht
      simp [addHeldLock, eraseHeldLock, herase]
    · simp [addHeldLock, eraseHeldLock, herase, ht]
  have hmem : ∀ {t j}, j ∈ ((s.eraseHeldLock u i).addHeldLock next i).heldLockInfoList t ↔
      (j = i ∧ t = next) ∨ (j ∈ s.heldLockInfoList t ∧ j ≠ i) := by
    intro t j
    rw [hheld]
    split
    · rename_i ht
      rw [mem_cons, (h.held t).mem_erase_iff]
      tauto
    · rename_i ht
      rw [(h.held t).mem_erase_iff]
      tauto
  have hinfo : ∀ j, j ≠ i → ((s.eraseHeldLock u i).addHeldLock next i).lockInfo j = s.lockInfo j :=
    fun j hj => update_of_ne hj _ _
  have hself : ((s.eraseHeldLock u i).addHeldLock next i).lockInfo i =
      { s.lockInfo i with owner := some next } := update_self _ _ _
  refine ⟨⟨fun t j hj => ?_, fun t j hj _ => ?_, fun t => ?_, fun v j hv => ?_, fun t j hj => ?_⟩,
    fun t => ?_, fun v => ?_⟩
  · rcases hmem.mp hj with ⟨rfl, rfl⟩ | ⟨hj, hji⟩
    · have hok := h.info u j hi
      constructor <;> simp only [hself]
      · exact hok.count
      · exact hok.nodup
      · exact hok.sorted
      · exact hok.waiting
      · exact hok.key
    · exact (h.info t j hj).congr (hinfo j hji) fun _ _ => ⟨rfl, rfl, rfl, rfl⟩
  · rcases hmem.mp hj with ⟨rfl, rfl⟩ | ⟨hj, hji⟩
    · rw [hself]
      exact hne
    · rw [hinfo j hji]
      exact h.occupied t j hj fun heq => hji (some.inj heq).symm
  · rw [hheld]
    have herase := (h.held t).erase i
    split
    · exact nodup_cons.mpr ⟨(h.held t).not_mem_erase, herase⟩
    · exact herase
  · obtain ⟨t, ht, hv⟩ := h.listed v j hv
    by_cases hji : j = i
    · subst hji
      exact ⟨next, hmem.mpr (.inl ⟨rfl, rfl⟩), by rwa [hself]⟩
    · exact ⟨t, hmem.mpr (.inr ⟨ht, hji⟩), by rwa [hinfo j hji]⟩
  · rcases hmem.mp hj with ⟨rfl, -⟩ | ⟨hj, -⟩
    · exact h.fresh u j hi
    · exact h.fresh t j hj
  · have hcount : (((s.eraseHeldLock u i).addHeldLock next i).lockInfo i).kernelWaiters =
        (s.lockInfo i).kernelWaiters := by
      rw [hself]
      rfl
    have hrest : ((s.heldLockInfoList t).erase i).map (fun j =>
        (((s.eraseHeldLock u i).addHeldLock next i).lockInfo j).kernelWaiters) =
        ((s.heldLockInfoList t).erase i).map fun j => (s.lockInfo j).kernelWaiters :=
      map_congr_left fun j hj => by rw [hinfo j ((h.held t).mem_erase_iff.mp hj).1]
    have hsum : s.kernelWaiters t = (if t = u then (s.lockInfo i).kernelWaiters else 0) +
        (((s.heldLockInfoList t).erase i).map fun j => (s.lockInfo j).kernelWaiters).sum := by
      split
      · rename_i ht
        exact kernelWaiters_erase (ht ▸ hi)
      · rename_i ht
        rw [erase_of_not_mem fun hit => ht (h.holder_eq hit hi), zero_add]
        rfl
    rw [hsum, kernelWaiters, hheld]
    split
    · rw [map_cons, sum_cons, hcount, hrest]
      omega
    · rw [hrest]
      omega
  · rw [getLockOwner, getLockOwner]
    cases hv : s.waitingLockInfo v with
    | none => simp [addHeldLock, eraseHeldLock, hv]
    | some j =>
      have hv' : ((s.eraseHeldLock u i).addHeldLock next i).waitingLockInfo v = some j := hv
      rw [hv', bind_some, bind_some]
      by_cases hji : j = i
      · subst hji
        rw [hself, if_pos rfl]
      · rw [hinfo j hji, if_neg fun heq => hji (some.inj heq)]

/-! ## 5. Books -/

/-- **The books are in order.** -/
structure Books (s : Threads T) : Prop where
  linked : Linked s none
  counted : Counted s

omit [DecidableEq T] in
/-- Books stay in order when nothing of the threads that wait changes. -/
theorem Linked.congr {o : Option Nat} (h : Linked s o) (hinfo : s'.lockInfo = s.lockInfo)
    (hheld : s'.heldLockInfoList = s.heldLockInfoList)
    (hwaiting : s'.waitingLockInfo = s.waitingLockInfo) (halloc : s'.allocated = s.allocated)
    (hsame : ∀ w, s.waitingLockInfo w ≠ none → s'.priority w = s.priority w ∧
      s'.addressKey w = s.addressKey w ∧ s'.isKernelAddressKey w = s.isKernelAddressKey w) :
    Linked s' o where
  info t i hi := by
    rw [hheld] at hi
    have hok := h.info t i hi
    refine hok.congr (by rw [hinfo]) fun w hw => ?_
    obtain ⟨hp, hk, hb⟩ := hsame w (by simp [hok.waiting w hw])
    exact ⟨hp, by rw [hwaiting], hk, hb⟩
  occupied := by
    rw [hinfo, hheld]
    exact h.occupied
  held := hheld ▸ h.held
  listed := by
    rw [hinfo, hheld, hwaiting]
    exact h.listed
  fresh := by
    rw [hheld, halloc]
    exact h.fresh

omit [DecidableEq T] in
theorem Books.congr (h : Books s) (hinfo : s'.lockInfo = s.lockInfo)
    (hheld : s'.heldLockInfoList = s.heldLockInfoList)
    (hwaiting : s'.waitingLockInfo = s.waitingLockInfo) (halloc : s'.allocated = s.allocated)
    (hnum : s'.numKernelWaiters = s.numKernelWaiters)
    (hsame : ∀ w, s.waitingLockInfo w ≠ none → s'.priority w = s.priority w ∧
      s'.addressKey w = s.addressKey w ∧ s'.isKernelAddressKey w = s.isKernelAddressKey w) :
    Books s' where
  linked := h.linked.congr hinfo hheld hwaiting halloc hsame
  counted t := by
    rw [hnum, h.counted t, kernelWaiters, kernelWaiters, hheld, hinfo]

omit [DecidableEq T] in
theorem getLockOwner_congr (hinfo : s'.lockInfo = s.lockInfo)
    (hwaiting : s'.waitingLockInfo = s.waitingLockInfo) :
    s'.getLockOwner w = s.getLockOwner w := by
  rw [getLockOwner, getLockOwner, hinfo, hwaiting]

omit [DecidableEq T] in
theorem kernelWaiters_nonneg (s : Threads T) (t : T) : 0 ≤ s.kernelWaiters t := by
  refine sum_nonneg fun x hx => ?_
  obtain ⟨i, -, rfl⟩ := mem_map.mp hx
  exact (s.lockInfo i).kernelWaiters_nonneg

omit [DecidableEq T] in
theorem kernelWaiters_le (hi : i ∈ s.heldLockInfoList t) :
    (s.lockInfo i).kernelWaiters ≤ s.kernelWaiters t := by
  have hrest : 0 ≤ (((s.heldLockInfoList t).erase i).map fun i =>
      (s.lockInfo i).kernelWaiters).sum := by
    refine sum_nonneg fun x hx => ?_
    obtain ⟨j, -, rfl⟩ := mem_map.mp hx
    exact (s.lockInfo j).kernelWaiters_nonneg
  rw [kernelWaiters_erase hi]
  omega

theorem countKernelWaiter (s : Threads T) (this : T) (d : Int) (isKernel : Bool) :
    (if isKernel then s.addKernelWaiters this d else s) =
      { s with numKernelWaiters := fun t => s.numKernelWaiters t +
          if t = this ∧ isKernel = true then d else 0 } := by
  cases isKernel with
  | false => simp
  | true =>
    have hfun : update s.numKernelWaiters this (s.numKernelWaiters this + d) = fun t =>
        s.numKernelWaiters t + if t = this ∧ true = true then d else 0 := by
      funext t
      by_cases ht : t = this
      · subst ht
        simp
      · simp [ht]
    rw [if_pos rfl, addKernelWaiters, hfun]

omit [DecidableEq T] in
theorem Linked.num {o : Option Nat} (h : Linked s o) (num : T → Int) :
    Linked { s with numKernelWaiters := num } o :=
  h.congr rfl rfl rfl rfl fun _ _ => ⟨rfl, rfl, rfl⟩

/-- **What entering or leaving a lock does**: the books stay in order, the threads keep their
priorities and keys, and one thread has a new lock owner, or none. -/
structure Rewaits (s s' : Threads T) (w : T) (owner : Option T) : Prop where
  books : Books s'
  same : SameThreads s s'
  lockOwner : ∀ v, s'.getLockOwner v = if v = w then owner else s.getLockOwner v

/-- **`AddWaiterImpl`** makes a thread that waits for nothing a waiter of this one. -/
theorem addWaiterImpl_spec (this : T) (h : Books s) (hw : s.waitingLockInfo thread = none)
    (hcondvar : s.condvarTree thread = none) :
    ∃ s', s.addWaiterImpl this thread = some s' ∧ Rewaits s s' thread (some this) := by
  have hnum : 0 ≤ s.numKernelWaiters this := by
    rw [h.counted]
    exact s.kernelWaiters_nonneg this
  have hopen := findOrCreateHeldLock_spec this (s.addressKey thread)
    (s.isKernelAddressKey thread) (h.linked.num fun t => s.numKernelWaiters t +
      if t = this ∧ s.isKernelAddressKey thread = true then 1 else 0)
  obtain ⟨s', hadd, hlinked, hsame, hnum', hcounts, howner⟩ := infoAddWaiter_spec (w := thread)
    hopen.linked hopen.mem (by rw [hopen.waiting, hw]) (by rw [hopen.same.addressKey, hopen.key])
    (by rw [hopen.same.isKernelAddressKey, hopen.isKernel])
  have hsame0 := hopen.same
  refine ⟨s', ?_, ⟨hlinked, fun t => ?_⟩, ?_, fun v => ?_⟩
  · rw [addWaiterImpl, assert_bind_of hcondvar, assert_bind_of fun _ => hnum, countKernelWaiter]
    exact hadd
  · rw [hnum', hopen.numKernelWaiters, hcounts, hopen.counts, hsame0.isKernelAddressKey]
    exact congrArg (· + _) (h.counted t)
  · exact SameThreads.trans ⟨hsame0.basePriority, hsame0.priority, hsame0.addressKey,
      hsame0.isKernelAddressKey, hsame0.condvarTree, hsame0.condvarKey, hsame0.condvar⟩ hsame
  · rw [howner, hopen.lockOwner]
    rfl

/-- **`RemoveWaiterImpl`** of its lock's owner makes a thread wait for nothing. -/
theorem removeWaiterImpl_spec (h : Books s) (howner : s.getLockOwner thread = some this) :
    ∃ s', s.removeWaiterImpl this thread = some s' ∧ Rewaits s s' thread none := by
  obtain ⟨i, hi, hmem⟩ := h.linked.getLockOwner_eq_some.mp howner
  have hok := h.linked.info this i hi
  obtain ⟨hlinked, hsame, hempty, hcounts, howners⟩ := infoRemoveWaiter_spec h.linked hi hmem
  have hnum : s.isKernelAddressKey thread = true → 0 < s.numKernelWaiters this := by
    intro hk
    have hrest := (s.infoRemoveWaiter i thread).2.kernelWaiters_nonneg this
    rw [hcounts, if_pos ⟨rfl, hk⟩] at hrest
    rw [h.counted]
    omega
  -- the counter is written first, and no later step reads it
  obtain ⟨num, hnumdef⟩ : ∃ num : T → Int, num = fun t => s.numKernelWaiters t +
      if t = this ∧ s.isKernelAddressKey thread = true then -1 else 0 := ⟨_, rfl⟩
  have hcounted : ∀ t, num t = (s.infoRemoveWaiter i thread).2.kernelWaiters t := by
    intro t
    rw [hcounts, ← h.counted]
    simp only [hnumdef]
    split <;> omega
  have hrun : s.removeWaiterImpl this thread = some (if (s.infoRemoveWaiter i thread).1 then
        { (s.infoRemoveWaiter i thread).2 with numKernelWaiters := num }.eraseHeldLock this i
      else { (s.infoRemoveWaiter i thread).2 with numKernelWaiters := num }) := by
    rw [removeWaiterImpl, assert_bind_of hnum, countKernelWaiter, ← hnumdef]
    simp only [hok.waiting thread hmem, bind_eq_bind, bind_some]
    rw [← bind_eq_bind, assert_bind_of hok.owner]
    rfl
  refine ⟨_, hrun, ?_⟩
  have hheld : i ∈ (s.infoRemoveWaiter i thread).2.heldLockInfoList this := hi
  generalize s.infoRemoveWaiter i thread = r at *
  split
  · rename_i hlast
    obtain ⟨hl, hk⟩ := eraseHeldLock_spec (hlinked.num num) hheld (hempty.mp hlast)
    refine ⟨⟨hl, fun t => (hcounted t).trans (hk t).symm⟩, ?_, howners⟩
    exact ⟨hsame.basePriority, hsame.priority, hsame.addressKey, hsame.isKernelAddressKey,
      hsame.condvarTree, hsame.condvarKey, hsame.condvar⟩
  · rename_i hlast
    have hne : (r.2.lockInfo i).tree ≠ [] := fun hnil => hlast (hempty.mpr hnil)
    have hb := hlinked.num num
    refine ⟨⟨⟨hb.info, fun t j hj _ => ?_, hb.held, hb.listed, hb.fresh⟩, hcounted⟩, ?_, howners⟩
    · by_cases hji : j = i
      · exact hji ▸ hne
      · exact hb.occupied t j hj fun heq => hji (some.inj heq).symm
    · exact ⟨hsame.basePriority, hsame.priority, hsame.addressKey, hsame.isKernelAddressKey,
        hsame.condvarTree, hsame.condvarKey, hsame.condvar⟩

/-- **The passing on of a lock**: its first waiter waits for nothing now, and the others wait for
that one. -/
theorem passLock_spec (h : Books s) (hi : i ∈ s.heldLockInfoList this) :
    ∃ next rest s', (s.lockInfo i).tree = next :: rest ∧
      s.passLock this i = some ((next, !rest.isEmpty), s') ∧ Books s' ∧ SameThreads s s' ∧
      ∀ v, s'.getLockOwner v = if v = next then none
        else if s.waitingLockInfo v = some i then some next else s.getLockOwner v := by
  have hok := h.linked.info this i hi
  obtain ⟨next, rest, htree⟩ :=
    exists_cons_of_ne_nil (h.linked.occupied this i hi (by simp))
  have hmem : next ∈ (s.lockInfo i).tree := htree ▸ mem_cons_self
  obtain ⟨hlinked, hsame, hempty, hcounts, howners⟩ := infoRemoveWaiter_spec h.linked hi hmem
  have hcount : (s.lockInfo i).waiterCount = rest.length + 1 := by
    rw [hok.count, htree, length_cons]
  have hkernel := (hok.key next hmem).2
  have hinfo : (s.infoRemoveWaiter i next).2.lockInfo i = { s.lockInfo i with
      tree := rest, waiterCount := rest.length } := by
    simp [infoRemoveWaiter, htree, hcount]
  have hwaiting : ∀ v, (s.infoRemoveWaiter i next).2.waitingLockInfo v =
      if v = next then none else s.waitingLockInfo v := by
    intro v
    by_cases hv : v = next
    · simp [infoRemoveWaiter, hv]
    · simp [infoRemoveWaiter, hv]
  have hfirst : (s.lockInfo i).isKernelAddressKey = true →
      0 ≤ s.numKernelWaiters this + -((s.lockInfo i).waiterCount : Int) := by
    intro hk
    have hle := kernelWaiters_le hi
    rw [LockInfo.kernelWaiters, if_pos hk] at hle
    rw [h.counted]
    omega
  -- the counter and the held list are written first, and the waiter leaves a lock that is in none
  have hrun : s.passLock this i = (do
      let ((empty, s1) : Bool × Threads T) := ((s.infoRemoveWaiter i next).1,
        { (s.infoRemoveWaiter i next).2 with
          numKernelWaiters := fun t => s.numKernelWaiters t +
            if t = this ∧ (s.lockInfo i).isKernelAddressKey = true then
              -((s.lockInfo i).waiterCount : Int) else 0 }.eraseHeldLock this i)
      if empty then return ((next, false), s1)
      else
        let s1 := s1.addHeldLock next i
        let s1 := if (s.lockInfo i).isKernelAddressKey then
          s1.addKernelWaiters next (s1.lockInfo i).waiterCount else s1
        assert ((s.lockInfo i).isKernelAddressKey = true → 0 < s1.numKernelWaiters next)
        return ((next, true), s1)) := by
    rw [passLock]
    simp only [countKernelWaiter (s.eraseHeldLock this i)]
    rw [assert_bind_of fun hk => by simpa [eraseHeldLock, hk] using hfirst hk,
      assert_bind_of (by omega)]
    simp only [eraseHeldLock, htree, List.head?_cons, bind_eq_bind, bind_some]
    rfl
  have hheld : i ∈ (s.infoRemoveWaiter i next).2.heldLockInfoList this := hi
  have hbooks := h.counted
  generalize hr : s.infoRemoveWaiter i next = r at *
  have hlast : r.1 = rest.isEmpty := by
    rw [Bool.eq_iff_iff, hempty, hinfo]
    simp
  rw [hlast] at hrun
  cases rest with
  | nil =>
    obtain ⟨hl, hk⟩ := eraseHeldLock_spec hlinked hheld (by rw [hinfo])
    refine ⟨next, [], _, htree, hrun, ⟨hl.num _, fun t => ?_⟩, ⟨hsame.basePriority, hsame.priority,
      hsame.addressKey, hsame.isKernelAddressKey, hsame.condvarTree, hsame.condvarKey,
      hsame.condvar⟩, fun v => ?_⟩
    · refine Eq.trans ?_ (hk t).symm
      refine Eq.trans ?_ (hcounts t).symm
      rw [← h.counted t, hkernel, hcount]
      simp only [eraseHeldLock]
      split
      · simp
        omega
      · simp
    · refine (howners v).trans ?_
      split
      · rfl
      · rename_i hv
        refine (if_neg fun hw => ?_).symm
        obtain ⟨t, ht, hvt⟩ := h.linked.listed v i hw
        rw [htree] at hvt
        exact hv (mem_singleton.mp hvt)
  | cons second rest =>
    obtain ⟨hl, hk, ho⟩ := moveHeldLock_spec hlinked hheld (by simp [hinfo]) next
    have hkw : (r.2.lockInfo i).kernelWaiters =
        if (s.lockInfo i).isKernelAddressKey = true then (rest.length : Int) + 1 else 0 := by
      simp [hinfo, LockInfo.kernelWaiters]
    have hinfo' : ∀ num : T → Int, (({ r.2 with numKernelWaiters := num }.eraseHeldLock
        this i).addHeldLock next i).lockInfo i = { r.2.lockInfo i with owner := some next } :=
      fun num => update_self _ _ _
    obtain ⟨num, hnum⟩ : ∃ num : T → Int, num = fun t => s.numKernelWaiters t +
        (if t = this ∧ (s.lockInfo i).isKernelAddressKey = true then
          -((s.lockInfo i).waiterCount : Int) else 0) +
        if t = next ∧ (s.lockInfo i).isKernelAddressKey = true then
          (rest.length : Int) + 1 else 0 := ⟨_, rfl⟩
    have hcounted : ∀ t, num t = ((r.2.eraseHeldLock this i).addHeldLock next i).kernelWaiters t := by
      intro t
      rw [hk, hcounts, ← h.counted t, hkernel, hkw]
      simp only [hnum, hcount, length_cons]
      cases (s.lockInfo i).isKernelAddressKey with
      | false => simp
      | true =>
        simp only [and_true, if_true]
        split <;> split <;> omega
    have hpos : (s.lockInfo i).isKernelAddressKey = true → 0 < num next := by
      intro hkey
      have hle : (((r.2.eraseHeldLock this i).addHeldLock next i).lockInfo i).kernelWaiters ≤
          ((r.2.eraseHeldLock this i).addHeldLock next i).kernelWaiters next :=
        kernelWaiters_le (by simp [addHeldLock])
      have hown : (((r.2.eraseHeldLock this i).addHeldLock next i).lockInfo i).kernelWaiters =
          (r.2.lockInfo i).kernelWaiters := by
        simp only [addHeldLock, eraseHeldLock, update_self]
        rfl
      rw [hown, hkw, if_pos hkey] at hle
      rw [hcounted]
      omega
    refine ⟨next, second :: rest, { (r.2.eraseHeldLock this i).addHeldLock next i with
      numKernelWaiters := num }, htree, ?_, ⟨hl.num num, hcounted⟩, ⟨hsame.basePriority,
      hsame.priority, hsame.addressKey, hsame.isKernelAddressKey, hsame.condvarTree,
      hsame.condvarKey, hsame.condvar⟩, fun v => ?_⟩
    · rw [hrun]
      simp only [isEmpty_cons, Bool.false_eq_true, if_false, countKernelWaiter, hinfo', hinfo, length_cons]
      rw [assert_bind_of]
      · subst hnum
        rfl
      · intro hkey
        have hnext := hpos hkey
        simp only [hnum, eq_self, true_and] at hnext
        simpa [addHeldLock, eraseHeldLock] using hnext
    · refine (ho v).trans ?_
      rw [hwaiting, howners]
      split
      · simp
      · rfl

end Threads

end Yuzu.Kernel.PriorityInheritance
