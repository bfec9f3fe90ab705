/-
  File:      Yuzu/Kernel/SchedulerQueue.lean
  Subject:   The calls of KScheduler and KThread on the priority queue (k_scheduler.cpp).

  A thread is queued while its state is Runnable. Its priority, core and affinity mask are changed
  first, and the queue is then told the old ones. `QueueOp.fifo` says what each call should do to
  lists; the intrusive queues do the same.

  * `QueueInv` -- a thread is in the lists of its cores and priority exactly while it is queued;
  * `QueueOp.run_step` -- every call keeps it;
  * `QueueOp.run_keeps_fifo` -- so the queues refine first-in first-out lists along every run.
-/
import Yuzu.Kernel.PriorityQueue

namespace Yuzu.Kernel

set_option linter.unusedSectionVars false

open KPriorityQueue List Function

variable {T : Type} [DecidableEq T]

/-! ## 1. KScheduler's calls -/

namespace KPriorityQueue

def setThread (q : KPriorityQueue T) (thread : T) (t : QueueMember) : KPriorityQueue T :=
  { q with threads := Function.update q.threads thread t }

/-- `KScheduler::OnThreadStateChanged`. -/
def onThreadStateChanged (q : KPriorityQueue T) (thread : T) (oldState : ThreadState) :
    Option (KPriorityQueue T) :=
  let curState := (q.threads thread).rawState
  if curState = oldState then some q
  else if oldState = runnable then q.remove thread
  else if curState = runnable then q.pushBack thread
  else some q

/-- `KScheduler::OnThreadPriorityChanged`; `isRunning` if the thread is the current one. -/
def onThreadPriorityChanged (q : KPriorityQueue T) (thread : T) (oldPriority : Int)
    (isRunning : Bool) : Option (KPriorityQueue T) :=
  if (q.threads thread).rawState = runnable then q.changePriority oldPriority isRunning thread
  else some q

/-- `KScheduler::OnThreadAffinityMaskChanged`. -/
def onThreadAffinityMaskChanged (q : KPriorityQueue T) (thread : T) (oldAffinity : BitVec 64)
    (oldCore : Int) : Option (KPriorityQueue T) :=
  if (q.threads thread).rawState = runnable then q.changeAffinityMask oldCore oldAffinity thread
  else some q

/-- The queues before any thread is pushed. -/
def initial (threads : T → QueueMember) : KPriorityQueue T where
  threads := threads
  entries := fun _ _ => ⟨none, none⟩
  impl := fun _ => ⟨fun _ _ => ⟨none, none⟩, fun _ => .empty⟩

end KPriorityQueue

/-- A call on the queue, with the change of the thread that it reports. -/
inductive QueueOp (T : Type) where
  | setState (thread : T) (state : ThreadState)
  | setPriority (thread : T) (priority : Int) (isRunning : Bool)
  | setAffinity (thread : T) (core : Int) (affinity : BitVec 64)
  | moveToScheduledFront (thread : T)
  | moveToScheduledBack (thread : T)
  | setActiveCore (thread : T) (core : Int) (toFront : Bool)

namespace QueueOp

/-- The call as KScheduler and KThread make it, with the old values. -/
def run (op : QueueOp T) (q : KPriorityQueue T) : Option (KPriorityQueue T) :=
  match op with
  | setState thread state =>
    (q.setThread thread { q.threads thread with rawState := state }).onThreadStateChanged thread
      (q.threads thread).rawState
  | setPriority thread priority isRunning =>
    (q.setThread thread { q.threads thread with priority := priority }).onThreadPriorityChanged
      thread (q.threads thread).priority isRunning
  | setAffinity thread core affinity =>
    (q.setThread thread { q.threads thread with
      activeCore := core
      affinityMask := affinity }).onThreadAffinityMaskChanged thread
      (q.threads thread).affinityMask (q.threads thread).activeCore
  | moveToScheduledFront thread => q.moveToScheduledFront thread
  | moveToScheduledBack thread => (q.moveToScheduledBack thread).map Prod.snd
  | setActiveCore thread core toFront =>
    (q.setThread thread { q.threads thread with activeCore := core }).changeCore
      (q.threads thread).activeCore thread toFront

/-- A queued thread is moved only on a core it has, and its new priority and cores exist. -/
def Legal (op : QueueOp T) (q : KPriorityQueue T) : Prop :=
  match op with
  | setState _ _ => True
  | setPriority thread priority _ =>
    (q.threads thread).isDummyThread = false → isValidPriority priority
  | setAffinity thread core affinity => (q.threads thread).isDummyThread = false →
      isValidMask affinity ∧ isValidActiveCore core affinity
  | moveToScheduledFront thread => (q.threads thread).isDummyThread = false →
      (q.threads thread).rawState = runnable ∧ 0 ≤ (q.threads thread).activeCore
  | moveToScheduledBack thread => (q.threads thread).isDummyThread = false →
      (q.threads thread).rawState = runnable ∧ 0 ≤ (q.threads thread).activeCore
  | setActiveCore thread core _ => (q.threads thread).isDummyThread = false →
      (q.threads thread).rawState = runnable ∧ isValidActiveCore core (q.threads thread).affinityMask

/-! ## 2. First in, first out -/

/-- A thread that is in the queues. -/
def Queued (t : QueueMember) : Prop := t.isDummyThread = false ∧ t.rawState = runnable

instance {t : QueueMember} : Decidable (Queued t) := inferInstanceAs (Decidable (_ ∧ _))

/-- **What a call should do to the lists**: a thread that becomes runnable goes to the end of its
    lists, one that is no longer runnable leaves them, and one whose place changes leaves its old
    lists for the new ones. -/
def fifo (op : QueueOp T) (q : KPriorityQueue T) (L : KPriorityQueue.Lists T) : KPriorityQueue.Lists T :=
  match op with
  | setState thread state =>
    let t := q.threads thread
    if Queued t then
      if state = runnable then L else L.visit (memberPlace t) t.priority fun _ l => l.erase thread
    else if Queued { t with rawState := state } then
      L.visit (memberPlace t) t.priority fun _ l => l ++ [thread]
    else L
  | setPriority thread priority isRunning =>
    let t := q.threads thread
    if Queued t then
      (L.visit (memberPlace t) t.priority fun _ l => l.erase thread).visit (memberPlace t) priority
        (push thread isRunning)
    else L
  | setAffinity thread core affinity =>
    let t := q.threads thread
    if Queued t then
      (L.visit (memberPlace t) t.priority fun _ l => l.erase thread).visit (place core affinity)
        t.priority fun _ l => l ++ [thread]
    else L
  | moveToScheduledFront thread =>
    let t := q.threads thread
    if Queued t then
      L.change t.activeCore .scheduled t.priority fun l => thread :: l.erase thread
    else L
  | moveToScheduledBack thread =>
    let t := q.threads thread
    if Queued t then
      L.change t.activeCore .scheduled t.priority fun l => l.erase thread ++ [thread]
    else L
  | setActiveCore thread core toFront =>
    let t := q.threads thread
    if Queued t ∧ core ≠ t.activeCore then
      (L.visit (between t.activeCore core (memberPlace t)) t.priority fun _ l =>
        l.erase thread).visit (between t.activeCore core (place core t.affinityMask)) t.priority
          (push thread toFront)
    else L

end QueueOp

/-! ## 3. The invariant -/

open QueueOp

/-- The queues have the lists, and a thread is in the lists of its places exactly while it is
    queued. -/
structure QueueInv (q : KPriorityQueue T) (L : KPriorityQueue.Lists T) : Prop
    extends Represents q L where
  ok : ∀ t, (q.threads t).isDummyThread = false →
    MemberOk (q.threads t) ∧ isValidPriority (q.threads t).priority
  mem : ∀ t c k p, t ∈ L c k p ↔ Queued (q.threads t) ∧ memberPlace (q.threads t) c = some k ∧
    p = (q.threads t).priority ∧ (q.threads t).priority ≤ lowestPriority

namespace QueueInv

variable {q q' : KPriorityQueue T} {L L' : KPriorityQueue.Lists T} {m : T} {k : QueueKind} {c p : Int}
  {pl : Int → Option QueueKind} {f : QueueKind → List T → List T}

theorem inPlace (h : QueueInv q L) (hm : Queued (q.threads m)) :
    InPlace L m (memberPlace (q.threads m)) (q.threads m).priority := fun c k p => by
  rw [h.mem]
  exact and_iff_right hm

theorem absent (h : QueueInv q L) (hm : ¬Queued (q.threads m)) : Absent L m := fun c k p hmem =>
  hm ((h.mem m c k p).mp hmem).1

theorem valid_of_mem (h : QueueInv q L) (hm : m ∈ L c k p) : isValidCore c ∧ hasQueue p := by
  obtain ⟨hq, hpl, rfl, hle⟩ := (h.mem m c k p).mp hm
  obtain ⟨hok, hp⟩ := h.ok m hq.1
  exact ⟨isValidCore_of_place hok.mask hpl, hp.1, hle⟩

theorem nodup (h : QueueInv q L) (c : Int) (k : QueueKind) (p : Int) : (L c k p).Nodup := by
  cases hl : L c k p with
  | nil => exact nodup_nil
  | cons t l =>
    obtain ⟨hc, hp⟩ := h.valid_of_mem (show t ∈ L c k p from hl ▸ mem_cons_self)
    have := (h.ring c k p hc hp).nodup
    rwa [hl] at this

end QueueInv

section Visit

variable {L : KPriorityQueue.Lists T} {m t : T} {k : QueueKind} {c p p' : Int}
  {pl : Int → Option QueueKind} {f : QueueKind → List T → List T}

theorem mem_visit_other (hf : ∀ k l, t ∈ f k l ↔ t ∈ l) : t ∈ L.visit pl p f c k p' ↔ t ∈ L c k p' := by
  rw [KPriorityQueue.Lists.visit_apply]
  split
  · exact hf k _
  · exact Iff.rfl

theorem inPlace_of_absent (h : Absent L m) (hf : ∀ k l, m ∈ f k l) : InPlace (L.visit pl p f) m pl p := by
  intro c k p'
  rw [KPriorityQueue.Lists.visit_apply]
  split
  · rename_i hn
    exact iff_of_true (hf k _) hn
  · rename_i hn
    exact iff_of_false (h c k p') hn

theorem change_eq_visit {f : List T → List T} : L.change c k p f =
    L.visit (fun c' => if c' = c then some k else none) p fun _ => f := by
  funext c'
  rw [KPriorityQueue.Lists.change, KPriorityQueue.Lists.visit]
  by_cases hc : c' = c
  · simp [hc]
  · simp [hc]

variable {toFront : Bool}

/-- The places of two active cores differ on these cores only. -/
theorem inPlace_between {core core' : Int} {affinity : BitVec 64}
    (h : InPlace L m (place core affinity) p) (hn : ∀ c k p, (L c k p).Nodup) :
    InPlace ((L.visit (between core core' (place core affinity)) p fun _ l => l.erase m).visit
      (between core core' (place core' affinity)) p (push m toFront)) m (place core' affinity) p := by
  intro c k p'
  by_cases hc : c = core ∨ c = core'
  · have hb : ∀ pl, between core core' pl c = pl c := fun pl => if_pos hc
    rw [KPriorityQueue.Lists.visit_apply, hb]
    split
    · rename_i hin
      exact iff_of_true (mem_push.mpr (.inl rfl)) hin
    · rename_i hout
      refine iff_of_false ?_ hout
      rw [KPriorityQueue.Lists.visit_apply, hb]
      split
      · exact (hn c k p').not_mem_erase
      · rename_i hout'
        exact fun hm => hout' ((h c k p').mp hm)
  · have hb : ∀ pl, between core core' pl c = none := fun pl => if_neg hc
    rw [not_or] at hc
    have hpl : place core' affinity c = place core affinity c := by
      rw [place, place, if_neg hc.1, if_neg hc.2]
    have hnone : ∀ k : QueueKind, ¬((none : Option QueueKind) = some k ∧ p' = p ∧
        p ≤ lowestPriority) := fun k hn => Option.some_ne_none k hn.1.symm
    rw [KPriorityQueue.Lists.visit_apply, hb, if_neg (hnone k),
      KPriorityQueue.Lists.visit_apply, hb, if_neg (hnone k), hpl]
    exact h c k p'

theorem mem_erase_other (hne : t ≠ m) {l : List T} : t ∈ l.erase m ↔ t ∈ l :=
  mem_erase_of_ne hne

theorem mem_append_other (hne : t ≠ m) {l : List T} : t ∈ l ++ [m] ↔ t ∈ l := by
  rw [mem_append, mem_singleton]
  exact or_iff_left hne

theorem mem_push_other (hne : t ≠ m) {l : List T} : t ∈ push m toFront k l ↔ t ∈ l := by
  rw [mem_push]
  exact or_iff_right hne

end Visit

variable {t : QueueMember} {q : KPriorityQueue T}

theorem KPriorityQueue.Represents.setThread {L : KPriorityQueue.Lists T}
    (h : Represents q L) {m : T} : Represents (q.setThread m t) L :=
  ⟨⟨h.ring, h.disjoint⟩, h.available⟩

theorem setThread_self {m : T} : (q.setThread m t).threads m = t := update_self _ _ _

theorem setThread_other {m t' : T} (h : t' ≠ m) :
    (q.setThread m t).threads t' = q.threads t' := update_of_ne h _ _

theorem queueInv_initial {threads : T → QueueMember} (h : ∀ t, (threads t).isDummyThread = false →
      MemberOk (threads t) ∧ isValidPriority (threads t).priority ∧ (threads t).rawState ≠ runnable) :
    QueueInv (initial threads) fun _ _ _ => [] := by
  refine ⟨⟨⟨fun c k p _ _ => Ring.nil rfl rfl, (fun c k p k' p' t ht => nomatch ht)⟩,
    fun c k p _ _ => ?_⟩, fun t ht => ⟨(h t ht).1, (h t ht).2.1⟩, fun t c k p => ?_⟩
  · exact iff_of_false (by rw [initial, Common.BitSet.test_empty]; exact Bool.false_ne_true)
      (not_not.mpr rfl)
  · exact iff_of_false not_mem_nil fun hn => (h t hn.1.1).2.2 hn.1.2

/-! ## 4. Every call -/

namespace QueueInv

variable {q q' : KPriorityQueue T} {L : KPriorityQueue.Lists T} {m : T}

theorem of_member (h : QueueInv q L) {L' : KPriorityQueue.Lists T}
    (hr : Represents q' L') (hth : q'.threads = (q.setThread m t).threads)
    (hok : t.isDummyThread = false → MemberOk t ∧ isValidPriority t.priority)
    (hother : ∀ t', t' ≠ m → ∀ c k p, t' ∈ L' c k p ↔ t' ∈ L c k p)
    (hin : Queued t → InPlace L' m (memberPlace t) t.priority)
    (hout : ¬Queued t → Absent L' m) : QueueInv q' L' := by
  refine ⟨hr, fun t' ht' => ?_, fun t' c k p => ?_⟩ <;> rw [hth] at *
  · by_cases hm : t' = m
    · rw [hm, setThread_self] at ht' ⊢
      exact hok ht'
    · rw [setThread_other hm] at ht' ⊢
      exact h.ok t' ht'
  · by_cases hm : t' = m
    · rw [hm, setThread_self]
      by_cases hq : Queued t
      · rw [hin hq c k p]
        exact (and_iff_right hq).symm
      · exact iff_of_false (hout hq c k p) fun hn => hq hn.1
    · rw [hother t' hm, setThread_other hm]
      exact h.mem t' c k p

theorem setThread (h : QueueInv q L) (hm : ¬Queued (q.threads m)) (ht : ¬Queued t)
    (hok : t.isDummyThread = false → MemberOk t ∧ isValidPriority t.priority) :
    QueueInv (q.setThread m t) L :=
  h.of_member h.toRepresents.setThread rfl hok (fun _ _ _ _ _ => Iff.rfl)
    (fun hq => absurd hq ht) fun _ => h.absent hm

theorem setThread_dummy (h : QueueInv q L)
    (hm : (q.threads m).isDummyThread = true) (ht : t.isDummyThread = true) :
    QueueInv (q.setThread m t) L := by
  refine h.setThread (fun hq => ?_) (fun hq => ?_) fun hd => ?_
  · rw [hq.1] at hm
    cases hm
  · rw [hq.1] at ht
    cases ht
  · rw [hd] at ht
    cases ht

theorem setThread_same (h : QueueInv q L) (ht : t = q.threads m) : QueueInv (q.setThread m t) L := by
  have hq : q.setThread m t = q := by
    rw [ht]
    exact congrArg (fun th => { q with threads := th }) (update_eq_self m q.threads)
  rw [hq]
  exact h

/-- `SetState` of a thread, and `OnThreadStateChanged`. -/
theorem setState (h : QueueInv q L) (state : ThreadState) :
    ∃ q', (QueueOp.setState m state).run q = some q' ∧
      QueueInv q' ((QueueOp.setState m state).fifo q L) := by
  unfold QueueOp.run QueueOp.fifo KPriorityQueue.onThreadStateChanged
  dsimp only
  have hself : (q.setThread m { q.threads m with rawState := state }).threads m =
      { q.threads m with rawState := state } := setThread_self
  rw [hself]
  dsimp only
  by_cases hd : (q.threads m).isDummyThread = true
  · have hnq : ∀ st, ¬Queued { q.threads m with rawState := st } := fun st hn => by
      rw [hn.1] at hd
      cases hd
    have hnt : ¬Queued (q.threads m) := hnq (q.threads m).rawState
    rw [if_neg hnt, if_neg (hnq state)]
    have hd' : ((q.setThread m { q.threads m with rawState := state }).threads m).isDummyThread =
        true := by
      rw [hself]
      exact hd
    refine ⟨_, ?_, h.setThread_dummy (t := { q.threads m with rawState := state }) hd hd⟩
    rw [KPriorityQueue.remove, if_pos hd', KPriorityQueue.pushBack, if_pos hd', ite_self, ite_self,
      ite_self]
  have hd : (q.threads m).isDummyThread = false := Bool.eq_false_iff.mpr hd
  obtain ⟨⟨hmask, hcore⟩, hp⟩ := h.ok m hd
  have hok : MemberOk { q.threads m with rawState := state } := ⟨hmask, hcore⟩
  have hr : Represents (q.setThread m { q.threads m with rawState := state }) L :=
    h.toRepresents.setThread
  by_cases hrun : (q.threads m).rawState = runnable
  · have hq : Queued (q.threads m) := ⟨hd, hrun⟩
    rw [if_pos hq, if_pos hrun]
    by_cases hst : state = runnable
    · rw [if_pos (hst.trans hrun.symm), if_pos hst]
      exact ⟨_, rfl, h.setThread_same (by rw [hst, ← hrun])⟩
    · -- it is no longer runnable: out of the queues
      rw [if_neg fun he => hst (he.trans hrun), if_neg hst, KPriorityQueue.remove, hself,
        if_neg (Bool.eq_false_iff.mp hd)]
      obtain ⟨q', hq', hth, h'⟩ := hr.removeAt (by rw [hself]; exact hok) hp
        (by rw [hself]; exact h.inPlace hq)
      rw [hself] at h'
      exact ⟨q', hq', h.of_member h' hth (fun _ => ⟨hok, hp⟩)
        (fun t' hne c k p => mem_visit_other fun _ _ => mem_erase_other hne)
        (fun hn => absurd hn.2 hst) fun _ => (h.inPlace hq).erase h.nodup⟩
  · have hnq : ¬Queued (q.threads m) := fun hn => hrun hn.2
    rw [if_neg hnq, if_neg hrun]
    by_cases hst : state = runnable
    · -- it becomes runnable: to the back of its queues
      have hq : Queued { q.threads m with rawState := state } := ⟨hd, hst⟩
      rw [if_neg fun he => hrun (he.symm.trans hst), if_pos hst, if_pos hq, KPriorityQueue.pushBack,
        hself, if_neg (Bool.eq_false_iff.mp hd)]
      obtain ⟨q', hq', hth, h'⟩ := hr.pushBackAt (by rw [hself]; exact hok) hp (h.absent hnq)
      rw [hself] at h'
      exact ⟨q', hq', h.of_member h' hth (fun _ => ⟨hok, hp⟩)
        (fun t' hne c k p => mem_visit_other fun _ _ => mem_append_other hne)
        (fun _ => inPlace_of_absent (h.absent hnq) fun _ l =>
          mem_append_right l (mem_singleton_self m)) fun hn => absurd hq hn⟩
    · have hnq' : ¬Queued { q.threads m with rawState := state } := fun hn => hst hn.2
      rw [if_neg hst, if_neg hnq', ite_self]
      exact ⟨_, rfl, h.setThread hnq hnq' fun _ => ⟨hok, hp⟩⟩

/-- A new priority, and `OnThreadPriorityChanged`. -/
theorem setPriority (h : QueueInv q L) {priority : Int} {isRunning : Bool}
    (hop : (QueueOp.setPriority m priority isRunning).Legal q) :
    ∃ q', (QueueOp.setPriority m priority isRunning).run q = some q' ∧
      QueueInv q' ((QueueOp.setPriority m priority isRunning).fifo q L) := by
  unfold QueueOp.run QueueOp.fifo KPriorityQueue.onThreadPriorityChanged
  dsimp only
  have hself : (q.setThread m { q.threads m with priority := priority }).threads m =
      { q.threads m with priority := priority } := setThread_self
  rw [hself]
  dsimp only
  by_cases hq : Queued (q.threads m)
  · obtain ⟨⟨hmask, hcore⟩, hp⟩ := h.ok m hq.1
    have hok : MemberOk { q.threads m with priority := priority } := ⟨hmask, hcore⟩
    have hp' : isValidPriority priority := hop hq.1
    rw [if_pos hq, if_pos hq.2]
    have hr : Represents (q.setThread m { q.threads m with priority := priority }) L :=
      h.toRepresents.setThread
    obtain ⟨q', hq', hth, h'⟩ := hr.changePriority (m := m) (by rw [hself]; exact hq.1)
      (by rw [hself]; exact hok) hp (by rw [hself]; exact hp') (by rw [hself]; exact h.inPlace hq)
      h.nodup
    rw [hself] at h'
    refine ⟨q', hq', h.of_member h' hth (fun _ => ⟨hok, hp'⟩) (fun t' hne c k p => ?_) (fun _ => ?_)
      fun hn => absurd hq hn⟩
    · rw [mem_visit_other fun _ _ => mem_push_other hne, mem_visit_other fun _ _ => mem_erase_other hne]
    · exact inPlace_of_absent ((h.inPlace hq).erase h.nodup) fun _ _ => mem_push.mpr (.inl rfl)
  · rw [if_neg hq]
    refine ⟨q.setThread m { q.threads m with priority := priority }, ?_,
      h.setThread hq hq fun hd => ⟨⟨(h.ok m hd).1.mask, (h.ok m hd).1.core⟩, hop hd⟩⟩
    split
    · rename_i hrun
      have hd : (q.threads m).isDummyThread = true := by
        by_contra hn
        exact hq ⟨Bool.eq_false_iff.mpr hn, hrun⟩
      rw [KPriorityQueue.changePriority, hself, if_pos hd]
    · rfl

/-- New cores, and `OnThreadAffinityMaskChanged`. -/
theorem setAffinity (h : QueueInv q L) {core : Int} {affinity : BitVec 64}
    (hop : (QueueOp.setAffinity m core affinity).Legal q) :
    ∃ q', (QueueOp.setAffinity m core affinity).run q = some q' ∧
      QueueInv q' ((QueueOp.setAffinity m core affinity).fifo q L) := by
  unfold QueueOp.run QueueOp.fifo KPriorityQueue.onThreadAffinityMaskChanged
  dsimp only
  have hself : (q.setThread m { q.threads m with
      activeCore := core
      affinityMask := affinity }).threads m = { q.threads m with
      activeCore := core
      affinityMask := affinity } := setThread_self
  rw [hself]
  dsimp only
  by_cases hq : Queued (q.threads m)
  · obtain ⟨⟨hmask, hcore⟩, hp⟩ := h.ok m hq.1
    obtain ⟨hmask', hcore'⟩ := hop hq.1
    have hok : MemberOk { q.threads m with
      activeCore := core
      affinityMask := affinity } := ⟨hmask', hcore'⟩
    rw [if_pos hq, if_pos hq.2]
    have hr : Represents (q.setThread m { q.threads m with
      activeCore := core
      affinityMask := affinity }) L := h.toRepresents.setThread
    obtain ⟨q', hq', hth, h'⟩ := hr.changeAffinityMask (m := m) (by rw [hself]; exact hq.1)
      hmask (by rw [hself]; exact hok) (by rw [hself]; exact hp) (by rw [hself]; exact h.inPlace hq)
      h.nodup
    rw [hself] at h'
    refine ⟨q', hq', h.of_member h' hth (fun _ => ⟨hok, hp⟩) (fun t' hne c k p => ?_) (fun _ => ?_)
      fun hn => absurd hq hn⟩
    · rw [mem_visit_other fun _ _ => mem_append_other hne, mem_visit_other fun _ _ => mem_erase_other hne]
    · exact inPlace_of_absent ((h.inPlace hq).erase h.nodup) fun _ l =>
        mem_append_right l (mem_singleton_self m)
  · rw [if_neg hq]
    refine ⟨_, ?_, h.setThread (t := { q.threads m with
      activeCore := core
      affinityMask := affinity }) hq hq fun hd => ⟨⟨(hop hd).1, (hop hd).2⟩, (h.ok m hd).2⟩⟩
    split
    · rename_i hrun
      have hd : (q.threads m).isDummyThread = true := by
        by_contra hn
        exact hq ⟨Bool.eq_false_iff.mpr hn, hrun⟩
      rw [KPriorityQueue.changeAffinityMask, hself, if_pos hd]
    · rfl

theorem of_move (h : QueueInv q L) (hq : Queued (q.threads m)) (h0 : 0 ≤ (q.threads m).activeCore)
    {f : List T → List T} (hf : ∀ l : List T, m ∈ f l) (hf' : ∀ t', t' ≠ m → ∀ l, t' ∈ f l ↔ t' ∈ l)
    (hth : q'.threads = q.threads)
    (hr : Represents q' (L.change (q.threads m).activeCore .scheduled (q.threads m).priority f)) :
    QueueInv q' (L.change (q.threads m).activeCore .scheduled (q.threads m).priority f) := by
  have hthm : q'.threads = (q.setThread m (q.threads m)).threads := by
    rw [hth]
    exact (update_eq_self m q.threads).symm
  have hpl : memberPlace (q.threads m) (q.threads m).activeCore = some .scheduled :=
    place_self h0 ((h.ok m hq.1).1.core.resolve_left (by omega)).2
  refine h.of_member hr hthm (h.ok m) (fun t' hne c k p => ?_) (fun _ c k p => ?_)
    fun hn => absurd hq hn
  · rw [change_eq_visit]
    exact mem_visit_other fun _ l => hf' t' hne l
  · rw [change_eq_visit, KPriorityQueue.Lists.visit_apply]
    by_cases hn : (if c = (q.threads m).activeCore then some QueueKind.scheduled else none) =
        some k ∧ p = (q.threads m).priority ∧ (q.threads m).priority ≤ lowestPriority
    · rw [if_pos hn]
      have hpl' : memberPlace (q.threads m) c = some k := by
        obtain ⟨hc, -⟩ := hn
        by_cases he : c = (q.threads m).activeCore
        · rw [if_pos he] at hc
          rw [he, hpl, hc]
        · rw [if_neg he] at hc
          cases hc
      exact iff_of_true (hf _) ⟨hpl', hn.2⟩
    · rw [if_neg hn]
      exact h.inPlace hq c k p

theorem moveToScheduledFront (h : QueueInv q L) (hop : (QueueOp.moveToScheduledFront m).Legal q) :
    ∃ q', (QueueOp.moveToScheduledFront m).run q = some q' ∧
      QueueInv q' ((QueueOp.moveToScheduledFront m).fifo q L) := by
  unfold QueueOp.run QueueOp.fifo KPriorityQueue.moveToScheduledFront
  dsimp only
  by_cases hd : (q.threads m).isDummyThread = true
  · rw [if_pos hd, if_neg fun hq => by rw [hq.1] at hd; cases hd]
    exact ⟨q, rfl, h⟩
  have hd : (q.threads m).isDummyThread = false := Bool.eq_false_iff.mpr hd
  obtain ⟨hrun, h0⟩ := hop hd
  have hq : Queued (q.threads m) := ⟨hd, hrun⟩
  obtain ⟨hok, hp⟩ := h.ok m hd
  have hb := (hok.core.resolve_left (by omega)).2
  obtain ⟨q', hq', hth, h'⟩ := h.implMoveToFront (k := .scheduled)
    (isValidCore_of_getLsbD hok.mask h0 hb) hp
    fun hle => (h.inPlace hq _ _ _).mpr ⟨place_self h0 hb, rfl, hle⟩
  rw [if_neg (Bool.eq_false_iff.mp hd), if_pos hq]
  refine ⟨q', hq', h.of_move hq h0 (fun l => mem_cons_self) (fun t' hne l => ?_) hth h'⟩
  rw [mem_cons, mem_erase_other hne]
  exact or_iff_right hne

theorem moveToScheduledBack (h : QueueInv q L) (hop : (QueueOp.moveToScheduledBack m).Legal q) :
    ∃ q', (QueueOp.moveToScheduledBack m).run q = some q' ∧
      QueueInv q' ((QueueOp.moveToScheduledBack m).fifo q L) := by
  unfold QueueOp.run QueueOp.fifo KPriorityQueue.moveToScheduledBack
  dsimp only
  by_cases hd : (q.threads m).isDummyThread = true
  · rw [if_pos hd, if_neg fun hq => by rw [hq.1] at hd; cases hd]
    exact ⟨q, rfl, h⟩
  have hd : (q.threads m).isDummyThread = false := Bool.eq_false_iff.mpr hd
  obtain ⟨hrun, h0⟩ := hop hd
  have hq : Queued (q.threads m) := ⟨hd, hrun⟩
  obtain ⟨hok, hp⟩ := h.ok m hd
  have hb := (hok.core.resolve_left (by omega)).2
  obtain ⟨r, q', hq', hth, h'⟩ := h.implMoveToBack (k := .scheduled)
    (isValidCore_of_getLsbD hok.mask h0 hb) hp
    fun hle => (h.inPlace hq _ _ _).mpr ⟨place_self h0 hb, rfl, hle⟩
  rw [if_neg (Bool.eq_false_iff.mp hd), if_pos hq, hq']
  refine ⟨q', rfl, h.of_move hq h0 (fun l => mem_append_right _ (mem_singleton_self m))
    (fun t' hne l => ?_) hth h'⟩
  rw [mem_append_other hne, mem_erase_other hne]

/-- A new active core, and `ChangeCore`, which changes no thread. -/
theorem setActiveCore_threads (h : QueueInv q L) {core : Int}
    (hop : (QueueOp.setActiveCore m core toFront).Legal q) :
    ∃ q', (QueueOp.setActiveCore m core toFront).run q = some q' ∧
      q'.threads = (q.setThread m { q.threads m with activeCore := core }).threads ∧
      QueueInv q' ((QueueOp.setActiveCore m core toFront).fifo q L) := by
  unfold QueueOp.run QueueOp.fifo
  dsimp only
  have hself : (q.setThread m { q.threads m with activeCore := core }).threads m =
      { q.threads m with activeCore := core } := setThread_self
  by_cases hd : (q.threads m).isDummyThread = true
  · rw [if_neg fun hq => by rw [hq.1.1] at hd; cases hd]
    refine ⟨_, ?_, rfl, h.setThread_dummy (t := { q.threads m with activeCore := core }) hd hd⟩
    rw [KPriorityQueue.changeCore, hself, if_pos hd]
  have hd : (q.threads m).isDummyThread = false := Bool.eq_false_iff.mpr hd
  obtain ⟨hrun, hcore'⟩ := hop hd
  have hq : Queued (q.threads m) := ⟨hd, hrun⟩
  obtain ⟨⟨hmask, hcore⟩, hp⟩ := h.ok m hd
  have hok : MemberOk { q.threads m with activeCore := core } := ⟨hmask, hcore'⟩
  by_cases hne : core = (q.threads m).activeCore
  · rw [if_neg fun hn => hn.2 hne]
    refine ⟨q.setThread m { q.threads m with activeCore := core }, ?_, rfl, h.setThread_same (by rw [hne])⟩
    rw [KPriorityQueue.changeCore, hself, if_neg (Bool.eq_false_iff.mp hd), if_neg fun hn => hn hne.symm]
  · rw [if_pos ⟨hq, hne⟩]
    have hr : Represents (q.setThread m { q.threads m with activeCore := core }) L :=
      h.toRepresents.setThread
    obtain ⟨q', hq', hth, h'⟩ := hr.changeCore (m := m) (by rw [hself]; exact hd)
      (by rw [hself]; exact hok) (by rw [hself]; exact hp) (by rw [hself]; exact hcore)
      (by rw [hself]; exact h.inPlace hq) h.nodup (by rw [hself]; exact fun he => hne he.symm)
    rw [hself] at h'
    refine ⟨q', hq', hth, h.of_member h' hth (fun _ => ⟨hok, hp⟩) (fun t' hne' c k p => ?_) (fun _ => ?_)
      fun hn => absurd hq hn⟩
    · rw [mem_visit_other fun _ _ => mem_push_other hne', mem_visit_other fun _ _ => mem_erase_other hne']
    · exact inPlace_between (h.inPlace hq) h.nodup

theorem setActiveCore (h : QueueInv q L) {core : Int}
    (hop : (QueueOp.setActiveCore m core toFront).Legal q) :
    ∃ q', (QueueOp.setActiveCore m core toFront).run q = some q' ∧
      QueueInv q' ((QueueOp.setActiveCore m core toFront).fifo q L) := by
  obtain ⟨q', hrun, -, hinv⟩ := h.setActiveCore_threads hop
  exact ⟨q', hrun, hinv⟩

end QueueInv

/-! ## 5. Every run -/

namespace QueueOp

variable {q : KPriorityQueue T} {L : KPriorityQueue.Lists T}

theorem run_step (h : QueueInv q L) {op : QueueOp T} (hop : op.Legal q) :
    ∃ q', op.run q = some q' ∧ QueueInv q' (op.fifo q L) := by
  cases op with
  | setState thread state => exact h.setState state
  | setPriority thread priority isRunning => exact h.setPriority hop
  | setAffinity thread core affinity => exact h.setAffinity hop
  | moveToScheduledFront thread => exact h.moveToScheduledFront hop
  | moveToScheduledBack thread => exact h.moveToScheduledBack hop
  | setActiveCore thread core toFront => exact h.setActiveCore hop

/-- The queues that runs of calls lead to, with the lists that they should then have. -/
inductive Reachable : KPriorityQueue T → KPriorityQueue.Lists T → Prop
  | initial {threads : T → QueueMember} (h : ∀ t, (threads t).isDummyThread = false →
      MemberOk (threads t) ∧ isValidPriority (threads t).priority ∧ (threads t).rawState ≠ runnable) :
      Reachable (initial threads) fun _ _ _ => []
  | step {q q' : KPriorityQueue T} {L : KPriorityQueue.Lists T} {op : QueueOp T}
      (hr : Reachable q L) (hrun : op.run q = some q') (hop : op.Legal q) : Reachable q' (op.fifo q L)

theorem Reachable.inv (hr : Reachable q L) : QueueInv q L := by
  induction hr with
  | initial h => exact queueInv_initial h
  | step _ hrun hop ih =>
    obtain ⟨q', hq', h'⟩ := run_step ih hop
    rw [hrun] at hq'
    cases hq'
    exact h'

/-- The queues have the lists, with a bit for each list that is not empty; a queued thread is once
    in each list of its places and in no other; and the getters return the first thread of the most
    urgent list. -/
structure Refines (q : KPriorityQueue T) (L : KPriorityQueue.Lists T) : Prop where
  represents : Represents q L
  count : ∀ t c k p, (L c k p).count t = if Queued (q.threads t) ∧
    (q.threads t).priority ≤ lowestPriority ∧ p = (q.threads t).priority ∧
      memberPlace (q.threads t) c = some k then 1 else 0
  scheduledFront : ∀ c, isValidCore c →
    ∃ r, q.getScheduledFront c = some r ∧ FirstFrom (L c .scheduled) highestPriority r
  suggestedFront : ∀ c, isValidCore c →
    ∃ r, q.getSuggestedFront c = some r ∧ FirstFrom (L c .suggested) highestPriority r

theorem refines (h : QueueInv q L) : Refines q L := by
  refine ⟨h.toRepresents, fun t c k p => ?_, fun c hc => h.front hc, fun c hc => h.front hc⟩
  have hmem := h.mem t c k p
  split
  · rename_i hin
    exact count_eq_one_of_mem (h.nodup c k p) (hmem.mpr ⟨hin.1, hin.2.2.2, hin.2.2.1, hin.2.1⟩)
  · rename_i hout
    refine count_eq_zero_of_not_mem fun hm => hout ?_
    obtain ⟨h1, h2, h3, h4⟩ := hmem.mp hm
    exact ⟨h1, h4, h3, h2⟩

/-- **The priority queue refines first-in first-out lists**, in every state of every run, and every
    call there returns. -/
theorem run_keeps_fifo (q : KPriorityQueue T) (L : KPriorityQueue.Lists T) (hr : Reachable q L) :
    Refines q L ∧ ∀ op : QueueOp T, op.Legal q → ∃ q', op.run q = some q' := by
  refine ⟨refines hr.inv, fun op hop => ?_⟩
  obtain ⟨q', hq', -⟩ := run_step hr.inv hop
  exact ⟨q', hq'⟩

/-- Two threads of core 1 that may run on core 0 too. -/
def twoThreads : Bool → QueueMember := fun _ => ⟨44, 1, 3, false, 0⟩

theorem twoThreads_initial : Reachable (initial twoThreads) fun _ _ _ => [] := by
  refine .initial fun t _ => ⟨⟨?_, ?_⟩, ?_, ?_⟩
  · show (3 : BitVec 64).toNat < 16
    decide
  · exact .inr ⟨by show (0 : Int) ≤ 1; decide, by show (3 : BitVec 64).getLsbD 1 = true; decide⟩
  · show (0 : Int) ≤ 44 ∧ (44 : Int) ≤ 63 + 1
    decide
  · show (0 : BitVec 16) ≠ 2
    decide

/-- Both become runnable; the first one is then in front. -/
theorem run_keeps_fifo_two : ∃ q₁ q₂ L₁ L₂, (setState false runnable).run (initial twoThreads) = some q₁ ∧
    (setState true runnable).run q₁ = some q₂ ∧ Refines q₁ L₁ ∧ L₁ 1 .scheduled 44 = [false] ∧
    L₁ 0 .suggested 44 = [false] ∧ Refines q₂ L₂ ∧ q₂.getScheduledFront 1 = some (some false) := by
  have hval : (((setState false runnable).run (initial twoThreads)).bind fun q₁ =>
      ((setState true runnable).run q₁).map fun q₂ => q₂.getScheduledFront 1) =
        some (some (some false)) := by
    decide +kernel
  obtain ⟨q₁, hq₁, hval⟩ := Option.bind_eq_some_iff.mp hval
  obtain ⟨q₂, hq₂, hfront⟩ := Option.map_eq_some_iff.mp hval
  have hr₁ := twoThreads_initial.step hq₁ trivial
  have hr₂ := hr₁.step hq₂ trivial
  exact ⟨q₁, q₂, _, _, hq₁, hq₂, (run_keeps_fifo q₁ _ hr₁).1, by decide, by decide,
    (run_keeps_fifo q₂ _ hr₂).1, hfront⟩

end QueueOp

end Yuzu.Kernel
