/-
  File:      Yuzu/Kernel/QueueOrder.lean
  Subject:   The threads of a core in the order of their urgency.

  `order L core kind` is the lists of all priorities behind one another. The getters walk it:
  `GetFront` gives its head and `GetNext` the thread behind another. A migration of a thread from one
  core to another changes the scheduled orders of these two cores only.
-/
import Yuzu.Kernel.SchedulerQueue

namespace Yuzu.Kernel

set_option linter.unusedSectionVars false

open KPriorityQueue QueueOp List

variable {T : Type} [DecidableEq T]

/-! ## 1. The order -/

/-- The lists of `n` priorities from `p` on. -/
def orderFrom (l : Int → List T) (p n : Nat) : List T := (List.range' p n).flatMap fun (i : Nat) => l i

/-- **The threads of a core**, the most urgent first. -/
def order (L : KPriorityQueue.Lists T) (core : Int) (k : QueueKind) : List T :=
  orderFrom (L core k) 0 64

variable {l : Int → List T} {p n : Nat} {r : Option T} {m t : T} {c d : Int} {k : QueueKind}
  {q : KPriorityQueue T} {L : KPriorityQueue.Lists T} {A B : List T}

theorem orderFrom_succ : orderFrom l p (n + 1) = l p ++ orderFrom l (p + 1) n := by
  rw [orderFrom, range'_succ, flatMap_cons]
  rfl

theorem orderFrom_append {n' : Nat} : orderFrom l p (n + n') = orderFrom l p n ++ orderFrom l (p + n) n' := by
  rw [orderFrom, ← range'_append_1, flatMap_append]
  rfl

theorem mem_orderFrom : t ∈ orderFrom l p n ↔ ∃ i : Nat, p ≤ i ∧ i < p + n ∧ t ∈ l i := by
  rw [orderFrom, mem_flatMap]
  constructor
  · intro ⟨i, hi, ht⟩
    rw [mem_range'_1] at hi
    exact ⟨i, hi.1, hi.2, ht⟩
  · intro ⟨i, hp, hn, ht⟩
    exact ⟨i, mem_range'_1.mpr ⟨hp, hn⟩, ht⟩

/-- The first thread from a priority on, by induction on the priorities behind it. -/
theorem firstFrom_head (h : FirstFrom l p r) (hn : p + n = 64) : r = (orderFrom l p n).head? := by
  induction n generalizing p with
  | zero =>
    rcases h with ⟨rfl, -⟩ | ⟨p', hp, hq, -, -⟩
    · rfl
    · have := hq.2
      rw [lowestPriority] at this
      omega
  | succ n ih =>
    have hq : hasQueue (p : Int) := by
      rw [hasQueue, lowestPriority]
      omega
    rw [orderFrom_succ]
    by_cases hl : l p = []
    · rw [hl, nil_append]
      refine ih ?_ (by omega)
      rcases h with ⟨rfl, hall⟩ | ⟨p', hp, hq', hne, hr, hall⟩
      · exact .inl ⟨rfl, fun i hi => hall i (by omega)⟩
      · have hneq : (p : Int) ≠ p' := by
          intro he
          rw [← he] at hne
          exact hne hl
        exact .inr ⟨p', by omega, hq', hne, hr, fun i hi => hall i (by omega)⟩
    · rcases h with ⟨-, hall⟩ | ⟨p', hp, hq', hne, hr, hall⟩
      · exact absurd (hall p (Int.le_refl _) hq) hl
      · have heq : (p : Int) = p' := by
          by_contra hneq
          exact hl (hall p (Int.le_refl _) (by omega) hq)
        rw [hr, ← heq, List.head?_append_of_ne_nil _ hl]

theorem order_split {i : Nat} (hi : i < 64) :
    order L c k = orderFrom (L c k) 0 i ++ (L c k i ++ orderFrom (L c k) (i + 1) (63 - i)) := by
  rw [← orderFrom_succ, ← Nat.zero_add i, Nat.zero_add i, order]
  have hsum : 64 = i + (63 - i + 1) := by omega
  rw [hsum, orderFrom_append, Nat.zero_add]

namespace QueueInv

theorem mem_order (h : QueueInv q L) : t ∈ order L c k ↔ Queued (q.threads t) ∧
    (q.threads t).priority ≤ lowestPriority ∧ memberPlace (q.threads t) c = some k := by
  rw [order, mem_orderFrom]
  constructor
  · intro ⟨i, _, _, ht⟩
    obtain ⟨hq, hpl, -, hle⟩ := (h.mem t c k i).mp ht
    exact ⟨hq, hle, hpl⟩
  · intro ⟨hq, hle, hpl⟩
    have hlo := (h.ok t hq.1).2.1
    rw [highestPriority] at hlo
    rw [lowestPriority] at hle
    refine ⟨(q.threads t).priority.toNat, Nat.zero_le _, by omega, ?_⟩
    rw [Int.toNat_of_nonneg hlo]
    exact (h.mem t c k _).mpr ⟨hq, hpl, rfl, hle⟩

theorem nodup_order (h : QueueInv q L) : (order L c k).Nodup := by
  rw [order, orderFrom, nodup_flatMap]
  refine ⟨fun i _ => h.nodup c k i, ?_⟩
  have hdistinct : (List.range' 0 64).Nodup := nodup_range'
  refine hdistinct.imp fun {i j} hij t hi hj => hij ?_
  exact Int.ofNat_inj.mp (h.disjoint c k i k j t hi hj).2

/-- **`GetFront`** gives the head of the order. -/
theorem front_order (h : QueueInv q L) (hc : isValidCore c) :
    q.implGetFront k c = some (order L c k).head? := by
  obtain ⟨r, hr, hfirst⟩ := h.front (k := k) hc
  rw [hr, firstFrom_head hfirst (Nat.zero_add 64)]
  rfl

/-- **`GetNext`** gives the thread behind another. -/
theorem getNext_order (h : QueueInv q L) (hc : isValidCore c) (hsplit : order L c k = A ++ m :: B) :
    q.implGetNext k c m = some B.head? := by
  have hm : m ∈ order L c k := hsplit ▸ mem_append_right _ mem_cons_self
  obtain ⟨hq, hle, hpl⟩ := h.mem_order.mp hm
  have hlo := (h.ok m hq.1).2.1
  have hlist : m ∈ L c k (q.threads m).priority := (h.mem m c k _).mpr ⟨hq, hpl, rfl, hle⟩
  obtain ⟨X, Y, hXY⟩ := append_of_mem hlist
  rw [highestPriority] at hlo
  have hcast : ((q.threads m).priority.toNat : Int) = (q.threads m).priority := Int.toNat_of_nonneg hlo
  have hlt : (q.threads m).priority.toNat < 64 := by
    rw [lowestPriority] at hle
    omega
  -- the order has the thread once, so what follows it is what follows in its list and then the rest
  have hwhole := @order_split T _ c k L (q.threads m).priority.toNat hlt
  rw [hcast, hXY, append_assoc, ← append_assoc, cons_append] at hwhole
  have hnodup := h.nodup_order (c := c) (k := k)
  rw [hsplit] at hwhole hnodup
  obtain ⟨-, hmB, hdisj⟩ := nodup_append'.mp hnodup
  have hmA : m ∉ A := fun hA => hdisj hA mem_cons_self
  obtain ⟨-, -, hB⟩ := (append_cons_inj_of_notMem hmA (nodup_cons.mp hmB).1).mp hwhole
  obtain ⟨r, hr, hnext⟩ := h.getNext hc ⟨hlo, hle⟩ hXY
  rw [hr, hB]
  rcases hnext with ⟨rfl, hne⟩ | ⟨rfl, hfirst⟩
  · rw [List.head?_append_of_ne_nil _ hne]
  · rw [← hcast] at hfirst
    rw [nil_append]
    exact congrArg some (firstFrom_head hfirst (by omega))

end QueueInv

/-! ## 2. A migration -/

theorem orderFrom_congr {l' : Int → List T} (h : ∀ i : Nat, l i = l' i) :
    orderFrom l p n = orderFrom l' p n := by
  rw [orderFrom, orderFrom]
  exact congrArg (List.range' p n).flatMap (funext h)

theorem orderFrom_erase (h : ∀ i j : Nat, m ∈ l i → m ∈ l j → i = j) :
    orderFrom (fun i => (l i).erase m) p n = (orderFrom l p n).erase m := by
  induction n generalizing p with
  | zero => rfl
  | succ n ih =>
    rw [orderFrom_succ, orderFrom_succ, ih]
    by_cases hm : m ∈ l p
    · have hrest : m ∉ orderFrom l (p + 1) n := by
        intro hin
        obtain ⟨i, hi, -, hmi⟩ := mem_orderFrom.mp hin
        have := h p i hm hmi
        omega
      rw [erase_append_left _ hm, erase_of_not_mem hrest]
    · rw [erase_append_right _ hm, erase_of_not_mem hm]

theorem orderFrom_eq_nil (h : ∀ i : Nat, p ≤ i → i < p + n → l i = []) : orderFrom l p n = [] := by
  refine eq_nil_iff_forall_not_mem.mpr fun t ht => ?_
  obtain ⟨i, hp, hn, hti⟩ := mem_orderFrom.mp ht
  rw [h i hp hn] at hti
  cases hti

theorem place_eq_suggested {core : Int} {affinity : BitVec 64}
    (h : place core affinity c = some .suggested) :
    0 ≤ c ∧ affinity.getLsbD c.toNat = true ∧ c ≠ core := by
  unfold place at h
  split at h
  · rename_i hbit
    refine ⟨hbit.1, hbit.2, fun he => ?_⟩
    rw [if_pos he] at h
    cases h
  · cases h

/-- The lists after a migration of a thread to a core where it is suggested. -/
def migrated (q : KPriorityQueue T) (L : KPriorityQueue.Lists T) (m : T) (core : Int) :
    KPriorityQueue.Lists T :=
  (QueueOp.setActiveCore m core false).fifo q L

namespace QueueInv

theorem migrated_eq (h : QueueInv q L) (hm : m ∈ order L c .suggested) : migrated q L m c =
    (L.visit (between (q.threads m).activeCore c (memberPlace (q.threads m))) (q.threads m).priority
      fun _ l => l.erase m).visit (between (q.threads m).activeCore c
        (place c (q.threads m).affinityMask)) (q.threads m).priority (push m false) := by
  obtain ⟨hq, -, hpl⟩ := h.mem_order.mp hm
  exact if_pos ⟨hq, (place_eq_suggested hpl).2.2⟩

theorem order_migrated_other (h : QueueInv q L) (hm : m ∈ order L c .suggested) (hd : d ≠ c)
    (hd' : d ≠ (q.threads m).activeCore) : order (migrated q L m c) d k = order L d k := by
  have hnone : ∀ pl, between (q.threads m).activeCore c pl d = none := fun pl =>
    if_neg (not_or.mpr ⟨hd', hd⟩)
  rw [order, h.migrated_eq hm]
  simp only [KPriorityQueue.Lists.visit, hnone]
  rfl

/-- **The thread leaves the order of its core.** -/
theorem order_migrated_old (h : QueueInv q L) (hm : m ∈ order L c .suggested)
    (h0 : 0 ≤ (q.threads m).activeCore) :
    order (migrated q L m c) (q.threads m).activeCore .scheduled =
      (order L (q.threads m).activeCore .scheduled).erase m := by
  obtain ⟨hq, hle, hpl⟩ := h.mem_order.mp hm
  obtain ⟨-, -, hne⟩ := place_eq_suggested hpl
  have hbit := ((h.ok m hq.1).1.core.resolve_left (by omega)).2
  have hself : memberPlace (q.threads m) (q.threads m).activeCore = some .scheduled :=
    place_self h0 hbit
  have hother : place c (q.threads m).affinityMask (q.threads m).activeCore = some .suggested :=
    place_other h0 hbit fun he => hne he.symm
  have hb : ∀ pl, between (q.threads m).activeCore c pl (q.threads m).activeCore =
      pl (q.threads m).activeCore := fun pl => if_pos (.inl rfl)
  refine Eq.trans (orderFrom_congr fun i => ?_) (orderFrom_erase fun i j hi hj =>
    Int.ofNat_inj.mp (h.disjoint _ _ i _ j m hi hj).2)
  have hkind : ¬((some QueueKind.suggested) = some QueueKind.scheduled ∧
      (i : Int) = (q.threads m).priority ∧ (q.threads m).priority ≤ lowestPriority) := fun hn =>
    absurd hn.1 (by decide)
  rw [h.migrated_eq hm, KPriorityQueue.Lists.visit_apply, hb, hother, if_neg hkind,
    KPriorityQueue.Lists.visit_apply, hb, hself]
  split
  · rfl
  · rename_i hi
    refine (erase_of_not_mem fun hmem => hi ⟨rfl, ?_, hle⟩).symm
    exact ((h.mem m _ _ i).mp hmem).2.2.1

/-- **On a core that was idle the thread is alone.** -/
theorem order_migrated_idle (h : QueueInv q L) (hm : m ∈ order L c .suggested)
    (hidle : order L c .scheduled = []) : order (migrated q L m c) c .scheduled = [m] := by
  obtain ⟨hq, hle, hpl⟩ := h.mem_order.mp hm
  obtain ⟨h0, hbit, hne⟩ := place_eq_suggested hpl
  have hself : place c (q.threads m).affinityMask c = some .scheduled := place_self h0 hbit
  have hb : ∀ pl, between (q.threads m).activeCore c pl c = pl c := fun pl => if_pos (.inr rfl)
  have hempty : ∀ i : Nat, i < 64 → L c .scheduled i = [] := by
    intro i hi
    refine eq_nil_iff_forall_not_mem.mpr fun t ht => ?_
    have hin : t ∈ order L c .scheduled := mem_orderFrom.mpr ⟨i, Nat.zero_le _, by omega, ht⟩
    rw [hidle] at hin
    cases hin
  have hlist : ∀ i : Nat, i < 64 → migrated q L m c c .scheduled i =
      if (i : Int) = (q.threads m).priority then [m] else [] := by
    intro i hi
    have hkind : ¬((some QueueKind.suggested) = some QueueKind.scheduled ∧
        (i : Int) = (q.threads m).priority ∧ (q.threads m).priority ≤ lowestPriority) := fun hn =>
      absurd hn.1 (by decide)
    rw [h.migrated_eq hm, KPriorityQueue.Lists.visit_apply, hb, hself,
      KPriorityQueue.Lists.visit_apply, hb, hpl, if_neg hkind, hempty i hi]
    by_cases hp : (i : Int) = (q.threads m).priority
    · rw [if_pos ⟨rfl, hp, hle⟩, if_pos hp]
      rfl
    · rw [if_neg fun hn => hp hn.2.1, if_neg hp]
  have hlo := (h.ok m hq.1).2.1
  rw [highestPriority] at hlo
  rw [lowestPriority] at hle
  obtain ⟨p, hp⟩ := Int.eq_ofNat_of_zero_le hlo
  rw [order_split (by omega : p < 64), hlist p (by omega), if_pos hp.symm,
    orderFrom_eq_nil fun i _ hi => ?_, orderFrom_eq_nil fun i hi hi' => ?_]
  · rfl
  · rw [hlist i (by omega), if_neg (by omega)]
  · rw [hlist i (by omega), if_neg (by omega)]

theorem migrate (h : QueueInv q L) (hm : m ∈ order L c .suggested) :
    ∃ q', (QueueOp.setActiveCore m c false).run q = some q' ∧ QueueInv q' (migrated q L m c) ∧
      q'.threads = (q.setThread m { q.threads m with activeCore := c }).threads := by
  obtain ⟨hq, -, hpl⟩ := h.mem_order.mp hm
  obtain ⟨h0, hbit, -⟩ := place_eq_suggested hpl
  obtain ⟨q', hrun, hth, hinv⟩ := @setActiveCore_threads _ _ q L m false h c
    fun _ => ⟨hq.2, .inr ⟨h0, hbit⟩⟩
  exact ⟨q', hrun, hinv, hth⟩

end QueueInv

end Yuzu.Kernel
