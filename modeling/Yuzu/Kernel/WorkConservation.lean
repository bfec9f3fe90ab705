/-
  File:      Yuzu/Kernel/WorkConservation.lean
  Subject:   `UpdateHighestPriorityThreadsImpl` leaves no core idle that could have run something.

  Without pinned threads the top thread of every core is the front of its queue (`Conserving.head`). A
  core that stays idle can only run threads that are alone on their cores (`Settled`). Such a thread is
  a top thread without a successor, so no later round migrates it, and a round never adds a second
  thread to its core: what one round gives up on stays given up (`Conserving.migrated`).
-/
import Yuzu.Kernel.HighestPriorityThreads

namespace Yuzu.Kernel

set_option linter.unusedSectionVars false

open KPriorityQueue QueueOp List Option Function

namespace Schedulers

variable {T P : Type} [DecidableEq T] {s s' : Schedulers T} {core c d : Int} {t u : T}
  {q₀ q : KPriorityQueue T} {L L' : KPriorityQueue.Lists T} {pending : List Int} {env : Processes T P}

/-! ## 1. The invariant -/

/-- Every thread that may run on the core is alone on its own. -/
def Settled (q : KPriorityQueue T) (L : KPriorityQueue.Lists T) (d : Int) : Prop :=
  ∀ k, ∀ t ∈ order L d k, order L (q.threads t).activeCore .scheduled = [t]

/-- **The invariant of the loop over the idle cores**, with those that are still to be visited. -/
structure Conserving (q₀ : KPriorityQueue T) (s : Schedulers T) (L : KPriorityQueue.Lists T)
    (pending : List Int) : Prop where
  inv : Inv q₀ s L
  head : ∀ c, isValidCore c → s.topThreads c = (order L c .scheduled).head?
  idle : ∀ d ∈ pending, isValidCore d ∧ order L d .scheduled = []
  settled : ∀ d, isValidCore d → d ∉ pending → order L d .scheduled = [] → Settled s.queue L d

theorem Conserving.give_up (h : Conserving q₀ s L (core :: pending)) (hsettled : Settled s.queue L core) :
    Conserving q₀ s L pending where
  inv := h.inv
  head := h.head
  idle d hd := h.idle d (mem_cons_of_mem _ hd)
  settled d hd hnot hnil := by
    by_cases he : d = core
    · rwa [he]
    · refine h.settled d hd (fun hmem => ?_) hnil
      rcases mem_cons.mp hmem with he' | hmem
      · exact he he'
      · exact hnot hmem

/-- **A round that migrates a thread** from a core that has another one, or from none: no core that was
given up on gets a second chance. -/
theorem Conserving.migrated (h : Conserving q₀ s L (core :: pending)) (hnodup : core ∉ pending)
    (ht : t ∈ order L core .suggested) (halone : order L (s.queue.threads t).activeCore .scheduled ≠ [t])
    (hinv : Inv q₀ s' (migrated s.queue L t core))
    (hth : s'.queue.threads = (s.queue.setThread t { s.queue.threads t with activeCore := core }).threads)
    (hcore : s'.topThreads core = some t)
    (hother : ∀ c, c ≠ core → c ≠ (s.queue.threads t).activeCore → s'.topThreads c = s.topThreads c)
    (hleft : 0 ≤ (s.queue.threads t).activeCore →
      order (migrated s.queue L t core) (s.queue.threads t).activeCore .scheduled ≠ [] ∧
        s'.topThreads (s.queue.threads t).activeCore =
          (order (migrated s.queue L t core) (s.queue.threads t).activeCore .scheduled).head?) :
    Conserving q₀ s' (migrated s.queue L t core) pending := by
  have hq := h.inv.queue
  obtain ⟨hvalid, hidle⟩ := h.idle core mem_cons_self
  have hnew := hq.order_migrated_idle ht hidle
  have hsame : ∀ d, d ≠ core → d ≠ (s.queue.threads t).activeCore → ∀ k,
      order (Kernel.migrated s.queue L t core) d k = order L d k := fun d hd hd' k =>
    hq.order_migrated_other ht hd hd'
  -- the thread is scheduled on its old core, if it has one
  have hold : 0 ≤ (s.queue.threads t).activeCore →
      t ∈ order L (s.queue.threads t).activeCore .scheduled := by
    intro h0
    obtain ⟨hqueued, hle, -⟩ := hq.mem_order.mp ht
    exact hq.mem_order.mpr ⟨hqueued, hle, place_self h0
      ((hq.ok t hqueued.1).1.core.resolve_left (by omega)).2⟩
  refine ⟨hinv, fun c hc => ?_, fun d hd => ?_, fun d hd hnot hnil => ?_⟩
  · by_cases he : c = core
    · rw [he, hcore, hnew]
      rfl
    · by_cases he' : c = (s.queue.threads t).activeCore
      · rw [he']
        exact (hleft (he' ▸ hc.1)).2
      · rw [hother c he he', hsame c he he', h.head c hc]
  · obtain ⟨hd', hnil⟩ := h.idle d (mem_cons_of_mem _ hd)
    refine ⟨hd', ?_⟩
    rw [hsame d (fun he => hnodup (he ▸ hd)) fun he => ?_, hnil]
    have hin := hold (he ▸ hd'.1)
    rw [← he, hnil] at hin
    cases hin
  · have hne : d ≠ core := by
      intro he
      rw [he, hnew] at hnil
      cases hnil
    have hne' : d ≠ (s.queue.threads t).activeCore := fun he =>
      (hleft (he ▸ hd.1)).1 (he ▸ hnil)
    rw [hsame d hne hne'] at hnil
    have hset := h.settled d hd (fun hmem => (mem_cons.mp hmem).elim hne hnot) hnil
    intro k u hu
    rw [hsame d hne hne'] at hu
    have hu' := hset k u hu
    have hut : u ≠ t := fun he => halone (he ▸ hu')
    have hmem : u ∈ order L (s.queue.threads u).activeCore .scheduled := hu' ▸ mem_cons_self
    have h0 := (bit_of_mem_order hq hmem).1
    rw [hth, setThread_other hut, hsame _ (fun he => ?_) (fun he => ?_), hu']
    · rw [he, hidle] at hmem
      cases hmem
    · have hin := hold (he ▸ h0)
      rw [← he, hu', mem_singleton] at hin
      exact hut hin.symm

/-! ## 2. A round -/

theorem eq_singleton_of_last {l X : List T} (hl : l.Nodup) (hhead : l.head? = some t) (hlast : l = X ++ [t]) :
    l = [t] := by
  cases X with
  | nil => exact hlast
  | cons x X =>
    rw [hlast, cons_append, List.head?_cons] at hhead
    rw [hlast, some.inj hhead, cons_append] at hl
    exact absurd (mem_append_right _ (mem_singleton_self t)) (nodup_cons.mp hl).1

/-- **One round of the loop** over the idle cores. -/
theorem Conserving.fillIdleCore (h : Conserving q₀ s L (core :: pending)) (hnodup : core ∉ pending)
    (hprio : ∀ t, highestCoreMigrationAllowedPriority ≤ (q₀.threads t).priority) :
    ∃ s' L', s.fillIdleCore core = some s' ∧ Conserving q₀ s' L' pending := by
  have hq := h.inv.queue
  obtain ⟨hvalid, hidle⟩ := h.idle core mem_cons_self
  obtain ⟨s', hrun, hcases⟩ := fillIdleCore_cases hq hvalid
  rcases hcases with ⟨rfl, hurgent | hlast⟩ | ⟨t, ht, htop, hmig⟩ | ⟨t, ht, htop, n, X, Y, hXY, hmig⟩
  · obtain ⟨c, t, -, hlt⟩ := hurgent
    rw [h.inv.threads t] at hlt
    have := hprio t
    dsimp only at hlt
    omega
  · refine ⟨s', L, hrun, h.give_up fun k t ht => ?_⟩
    cases k with
    | scheduled =>
      rw [hidle] at ht
      cases ht
    | suggested =>
      obtain ⟨htop, X, hX⟩ := hlast t ht
      have hhead := h.head _ (htop.mem_order hq ht).1
      rw [htop.2] at hhead
      exact eq_singleton_of_last hq.nodup_order hhead.symm hX
  · have hinv := h.inv.migrates_suggested hvalid ht htop hmig
    obtain ⟨q', -, hth, rfl⟩ := hmig
    have hne := (place_eq_suggested (hq.mem_order.mp ht).2.2).2.2
    -- the front of its core, if it has one, is another thread
    have hfront : 0 ≤ (s.queue.threads t).activeCore → ∃ f B,
        order L (s.queue.threads t).activeCore .scheduled = f :: B ∧ f ≠ t ∧
          s.topThreads (s.queue.threads t).activeCore = some f := by
      intro h0
      obtain ⟨hqueued, hle, -⟩ := hq.mem_order.mp ht
      have hbit := ((hq.ok t hqueued.1).1.core.resolve_left (by omega)).2
      have hhead := h.head _ (isValidCore_of_getLsbD (hq.ok t hqueued.1).1.mask h0 hbit)
      have hmem : t ∈ order L (s.queue.threads t).activeCore .scheduled :=
        hq.mem_order.mpr ⟨hqueued, hle, place_self h0 hbit⟩
      cases horder : order L (s.queue.threads t).activeCore .scheduled with
      | nil =>
        rw [horder] at hmem
        cases hmem
      | cons f B =>
        rw [horder, List.head?_cons] at hhead
        exact ⟨f, B, rfl, fun he => htop ⟨h0, he ▸ hhead⟩, hhead⟩
    refine ⟨_, _, hrun, h.migrated hnodup ht (fun halone => ?_) hinv (by rw [queue_setTopThread]; exact hth)
      ?_ (fun c hc _ => ?_) fun h0 => ?_⟩
    · have hmem : t ∈ order L (s.queue.threads t).activeCore .scheduled := halone ▸ mem_cons_self
      obtain ⟨f, B, hfB, hf, -⟩ := hfront (bit_of_mem_order hq hmem).1
      rw [hfB] at halone
      exact hf (cons.inj halone).1
    · rw [topThreads_setTopThread, update_self]
    · rw [topThreads_setTopThread, update_of_ne hc]
    · obtain ⟨f, B, hfB, hf, htopf⟩ := hfront h0
      rw [hq.order_migrated_old ht h0, hfB, erase_cons_tail (by simpa using hf),
        topThreads_setTopThread, update_of_ne hne.symm]
      exact ⟨cons_ne_nil _ _, htopf⟩
  · have hinv := h.inv.migrates_top hvalid ht htop hXY hmig
    obtain ⟨q', -, hth, rfl⟩ := hmig
    have hne := (place_eq_suggested (hq.mem_order.mp ht).2.2).2.2
    have hhead := h.head _ (htop.mem_order hq ht).1
    rw [htop.2] at hhead
    -- the top thread is the front of its core
    have horder : order L (s.queue.threads t).activeCore .scheduled = t :: n :: Y := by
      cases X with
      | nil => exact hXY
      | cons x X =>
        have hnodup' := hq.nodup_order (c := (s.queue.threads t).activeCore) (k := .scheduled)
        rw [hXY, cons_append] at hhead hnodup'
        rw [← some.inj hhead] at hnodup'
        exact absurd (mem_append_right _ mem_cons_self) (nodup_cons.mp hnodup').1
    refine ⟨_, _, hrun, h.migrated hnodup ht (fun halone => ?_) hinv ?_ ?_ (fun c hc hc' => ?_)
      fun h0 => ?_⟩
    · rw [horder] at halone
      cases halone
    · rw [queue_setTopThread]
      rw [queue_setTopThread] at hth
      exact hth
    · rw [topThreads_setTopThread, update_self]
    · rw [topThreads_setTopThread, update_of_ne hc]
      dsimp only
      rw [topThreads_setTopThread, update_of_ne hc']
    · rw [hq.order_migrated_old ht h0, horder, erase_cons_head, topThreads_setTopThread,
        update_of_ne hne.symm]
      dsimp only
      rw [topThreads_setTopThread, update_self]
      exact ⟨cons_ne_nil _ _, rfl⟩

theorem Conserving.fillIdleCores (h : Conserving q₀ s L pending) (hnodup : pending.Nodup)
    (hprio : ∀ t, highestCoreMigrationAllowedPriority ≤ (q₀.threads t).priority) :
    ∃ s' L', pending.foldlM Schedulers.fillIdleCore s = some s' ∧ Conserving q₀ s' L' [] := by
  induction pending generalizing s L with
  | nil => exact ⟨s, L, rfl, h⟩
  | cons core pending ih =>
    obtain ⟨hnot, hnodup'⟩ := nodup_cons.mp hnodup
    obtain ⟨s1, L1, hrun, h1⟩ := h.fillIdleCore hnot hprio
    obtain ⟨s', L', hrun', h'⟩ := ih h1 hnodup'
    refine ⟨s', L', ?_, h'⟩
    rw [foldlM_cons, hrun]
    exact hrun'

/-! ## 3. The whole update -/

/-- After the first loop the idle cores are those with an empty queue. -/
theorem Visited.conserving {idleCores : BitVec 64} (hv : Visited env q L [0, 1, 2, 3] s idleCores)
    (h : QueueInv q L) (hpin : ∀ p c, env.pinnedThread p c = none) :
    Conserving q s L ([0, 1, 2, 3].filter fun c => idleCores.getLsbD c.toNat) where
  inv := hv.inv h fun p c t _ hpinned => by
    rw [hpin p c] at hpinned
    cases hpinned
  head c hc := by
    have hprefer : preferPinned env q c = fun t => some t := by
      funext t
      rw [preferPinned]
      split
      · rfl
      · rw [hpin]
    rw [hv.top c (mem_cores.mpr hc), firstTop, hprefer]
    exact bind_fun_some _
  idle d hd := by
    obtain ⟨hmem, hbit⟩ := mem_filter.mp hd
    have hvalid := mem_cores.mp hmem
    exact ⟨hvalid, ((hv.idle d hvalid).mp hbit).2⟩
  settled d hd hnot hnil := by
    have hmem := mem_cores.mpr hd
    exact absurd (mem_filter.mpr ⟨hmem, (hv.idle d hd).mpr ⟨hmem, hnil⟩⟩) hnot

/-- A thread that the queue holds: it is runnable, and its priority has a queue. -/
def InQueue (t : QueueMember) : Prop := Queued t ∧ t.priority ≤ lowestPriority

/-- **The update conserves work**: a core is left without a thread only if every thread that may run on
it is the chosen thread of its own core, and the only one that is scheduled there. -/
theorem updateHighestPriorityThreads_conserves (env : Processes T P) (s : Schedulers T)
    (L : KPriorityQueue.Lists T) (h : QueueInv s.queue L) (hpin : ∀ p c, env.pinnedThread p c = none)
    (hprio : ∀ t, highestCoreMigrationAllowedPriority ≤ (s.queue.threads t).priority) :
    ∃ s', s.updateHighestPriorityThreads env = some s' ∧
      ∀ core, isValidCore core → s'.highestPriorityThread core = none →
        ∀ t, InQueue (s'.queue.threads t) → (s'.queue.threads t).affinityMask.getLsbD core.toNat = true →
          isValidCore (s'.queue.threads t).activeCore ∧
          s'.highestPriorityThread (s'.queue.threads t).activeCore = some t ∧
          ∀ u, InQueue (s'.queue.threads u) →
            (s'.queue.threads u).activeCore = (s'.queue.threads t).activeCore → u = t := by
  obtain ⟨s₁, idleCores, hfirst, hv⟩ := @firstLoop T P _ s L env h
  have hcores := nextCores_eq hv.valid
  have hnodup : ([0, 1, 2, 3].filter fun c : Int => idleCores.getLsbD c.toNat).Nodup :=
    List.Nodup.filter _ (by decide)
  obtain ⟨s', L', hrun, hfinal⟩ := (hv.conserving h hpin).fillIdleCores hnodup hprio
  have hq := hfinal.inv.queue
  refine ⟨s', ?_, fun core hcore hnone t ht hbit => ?_⟩
  · rw [updateHighestPriorityThreads, hfirst]
    exact (fillIdleCores_eq hcores).trans hrun
  · rw [hfinal.inv.highest core hcore, hfinal.head core hcore, List.head?_eq_none_iff] at hnone
    -- the thread is in one of the two orders of the idle core
    have hmem : ∃ k, t ∈ order L' core k :=
      ⟨_, hq.mem_order.mpr ⟨ht.1, ht.2, if_pos ⟨hcore.1, hbit⟩⟩⟩
    obtain ⟨k, hmem⟩ := hmem
    have halone := hfinal.settled core hcore not_mem_nil hnone k t hmem
    have hin : t ∈ order L' (s'.queue.threads t).activeCore .scheduled := halone ▸ mem_cons_self
    obtain ⟨h₀, hbit', -⟩ := bit_of_mem_order hq hin
    have hvalid := isValidCore_of_getLsbD (hq.ok t ht.1.1).1.mask h₀ hbit'
    refine ⟨hvalid, ?_, fun u hu hcu => ?_⟩
    · rw [hfinal.inv.highest _ hvalid, hfinal.head _ hvalid, halone]
      rfl
    · have hbitu := ((hq.ok u hu.1.1).1.core.resolve_left (by omega)).2
      have hmemu : u ∈ order L' (s'.queue.threads u).activeCore .scheduled :=
        hq.mem_order.mpr ⟨hu.1, hu.2, place_self (by omega) hbitu⟩
      rw [hcu, halone] at hmemu
      exact mem_singleton.mp hmemu

/-- A process without pinned threads. -/
def unpinned : Processes Bool Unit := ⟨fun _ => some (), fun _ _ => none, fun _ => 0⟩

/-- Two runnable threads of core 1, of which one may run on core 0 too. -/
theorem updateHighestPriorityThreads_conserves_pair : ∃ q₁ q₂ s',
    (setState false runnable).run (initial pinnedPair) = some q₁ ∧
    (setState true runnable).run q₁ = some q₂ ∧
    (schedulersOf q₂).updateHighestPriorityThreads unpinned = some s' ∧
    ∀ core, isValidCore core → s'.highestPriorityThread core = none →
      ∀ t, InQueue (s'.queue.threads t) → (s'.queue.threads t).affinityMask.getLsbD core.toNat = true →
        s'.highestPriorityThread (s'.queue.threads t).activeCore = some t := by
  have hval : (((setState false runnable).run (initial pinnedPair)).bind fun q₁ =>
      ((setState true runnable).run q₁).map fun q₂ =>
        ((q₂.threads false).priority, (q₂.threads true).priority)) = some (44, 44) := by
    decide +kernel
  obtain ⟨q₁, hq₁, hval⟩ := bind_eq_some_iff.mp hval
  obtain ⟨q₂, hq₂, hprio⟩ := map_eq_some_iff.mp hval
  obtain ⟨hfalse, htrue⟩ := Prod.mk.inj hprio
  obtain ⟨q₁', hq₁', h₁⟩ := pinnedPair_inv.setState (m := false) runnable
  obtain rfl := some.inj (hq₁.symm.trans hq₁')
  obtain ⟨q₂', hq₂', h₂⟩ := h₁.setState (m := true) runnable
  obtain rfl := some.inj (hq₂.symm.trans hq₂')
  obtain ⟨s', hrun, hconserves⟩ := updateHighestPriorityThreads_conserves unpinned (schedulersOf q₂) _ h₂
    (fun _ _ => rfl) fun t => by
      cases t
      · exact hfalse ▸ (by decide)
      · exact htrue ▸ (by decide)
  exact ⟨q₁, q₂, s', hq₁, hq₂, hrun, fun core hcore hnone t ht hbit =>
    (hconserves core hcore hnone t ht hbit).2.1⟩

end Schedulers

end Yuzu.Kernel
