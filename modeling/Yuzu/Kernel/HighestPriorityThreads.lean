/-
  File:      Yuzu/Kernel/HighestPriorityThreads.lean
  Subject:   `KScheduler::UpdateHighestPriorityThreadsImpl` (k_scheduler.cpp).

  Every core gets the front of its scheduled queue, or the thread that the front's process has pinned
  to the core. Cores with an empty queue are then filled one after another: with a suggested thread
  that is not the top thread of its core, or else with a top thread whose core has another one.

  * `Chosen` -- what a top thread is: it runs on its core only;
  * `fillIdleCore_cases` -- what one idle core can come to;
  * `updateHighestPriorityThreads_sound` -- no thread is chosen for two cores, and the assertion on the
    number of candidates holds.
-/
import Yuzu.Kernel.QueueOrder

namespace Yuzu.Kernel

set_option linter.unusedSectionVars false

open KPriorityQueue QueueOp Option Function BitVec

variable {T P : Type} [DecidableEq T]

/-! ## 1. The code -/

/-- `HighestCoreMigrationAllowedPriority`. -/
def highestCoreMigrationAllowedPriority : Int := 2

/-- What the scheduler asks of threads and processes. -/
structure Processes (T P : Type) where
  /-- `GetOwnerProcess`. -/
  ownerProcess : T → Option P
  /-- `GetPinnedThread`. -/
  pinnedThread : P → Int → Option T
  /-- `GetNumKernelWaiters`. -/
  numKernelWaiters : T → Int

/-- The schedulers of the cores, with the local variables of `UpdateHighestPriorityThreadsImpl`.
`updates` is the history of the calls of `UpdateHighestPriorityThread`: the core, its thread before and
the new one. -/
structure Schedulers (T : Type) where
  queue : KPriorityQueue T
  highestPriorityThread : Int → Option T
  needsScheduling : Int → Bool
  topThreads : Int → Option T
  coresNeedingScheduling : BitVec 64
  updates : List (Int × Option T × Option T)

namespace Schedulers

/-- `UpdateHighestPriorityThread` of the scheduler of a core. -/
def updateHighestPriorityThread (s : Schedulers T) (core : Int) (thread : Option T) :
    BitVec 64 × Schedulers T :=
  let prev := s.highestPriorityThread core
  let s := { s with updates := s.updates ++ [(core, prev, thread)] }
  if prev ≠ thread then
    (1#64 <<< core.toNat, { s with
      highestPriorityThread := Function.update s.highestPriorityThread core thread
      needsScheduling := Function.update s.needsScheduling core true })
  else (0#64, s)

/-- The top thread of a core is set, and its scheduler is told. -/
def setTopThread (s : Schedulers T) (core : Int) (thread : Option T) : Schedulers T :=
  let s := { s with topThreads := Function.update s.topThreads core thread }
  let result := s.updateHighestPriorityThread core thread
  { result.2 with coresNeedingScheduling := s.coresNeedingScheduling ||| result.1 }

/-- The pinned thread of the top thread's process goes first. -/
def preferPinned (env : Processes T P) (q : KPriorityQueue T) (core : Int) (topThread : T) : Option T :=
  match env.ownerProcess topThread with
  | none => some topThread
  | some parent =>
    match env.pinnedThread parent core with
    | none => some topThread
    | some pinned =>
      if pinned ≠ topThread ∧ env.numKernelWaiters topThread = 0 then
        if (q.threads pinned).rawState = runnable then some pinned else none
      else some topThread

/-- One round of the loop over all cores; the mask is `idle_cores`. -/
def visitCore (env : Processes T P) (state : Schedulers T × BitVec 64) (core : Int) :
    Option (Schedulers T × BitVec 64) := do
  let (s, idleCores) := state
  match ← s.queue.getScheduledFront core with
  | some topThread => return (s.setTopThread core (preferPinned env s.queue core topThread), idleCores)
  | none => return (s.setTopThread core none, idleCores ||| 1#64 <<< core.toNat)

/-- How the search among the suggested threads ends. -/
inductive Search (T : Type) where
  | migrate (suggested : T)
  | tooUrgent
  | exhausted (migrationCandidates : List Int)

/-- The loop over the suggested threads of an idle core. -/
def searchSuggested (s : Schedulers T) (core : Int) (suggested : Option T) (candidates : List Int) :
    Option (Search T) :=
  match suggested with
  | none => some (.exhausted candidates)
  | some suggested =>
    let suggestedCore := (s.queue.threads suggested).activeCore
    let topThread := if suggestedCore ≥ 0 then s.topThreads suggestedCore else none
    if topThread ≠ some suggested then
      if ∃ t ∈ topThread, (s.queue.threads t).priority < highestCoreMigrationAllowedPriority then
        some .tooUrgent
      else some (.migrate suggested)
    else if candidates.length < 4 then
      (s.queue.getSuggestedNext core suggested).bind fun next =>
        searchSuggested s core next (candidates ++ [suggestedCore])
    else none
termination_by 4 - candidates.length
decreasing_by
  rw [List.length_append, List.length_singleton]
  omega

/-- `SetActiveCore` and `ChangeCore`: the thread becomes the top thread of the idle core. -/
def migrate (s : Schedulers T) (core prevCore : Int) (suggested : T) : Option (Schedulers T) := do
  let q := s.queue.setThread suggested { s.queue.threads suggested with activeCore := core }
  let q ← q.changeCore prevCore suggested false
  return { s with queue := q }.setTopThread core (some suggested)

/-- The loop over the candidate cores: the first one that has another thread gives its top thread. -/
def tryCandidates (s : Schedulers T) (core : Int) : List Int → Option (Schedulers T)
  | [] => some s
  | candidateCore :: candidates => do
    let suggested ← s.topThreads candidateCore
    match ← s.queue.getScheduledNext candidateCore suggested with
    | none => tryCandidates s core candidates
    | some next => (s.setTopThread candidateCore (some next)).migrate core candidateCore suggested

/-- One round of the loop over the idle cores. -/
def fillIdleCore (s : Schedulers T) (core : Int) : Option (Schedulers T) := do
  match ← s.searchSuggested core (← s.queue.getSuggestedFront core) [] with
  | .migrate suggested => s.migrate core (s.queue.threads suggested).activeCore suggested
  | .tooUrgent => return s
  | .exhausted candidates => s.tryCandidates core candidates

/-- The loop over the idle cores, which takes a core out of the mask in each round. -/
def fillIdleCores : Nat → BitVec 64 → Schedulers T → Option (Schedulers T)
  | 0, idleCores, s => if idleCores = 0 then some s else none
  | fuel + 1, idleCores, s =>
    if idleCores = 0 then some s
    else (s.fillIdleCore (getNextCore idleCores).1).bind (fillIdleCores fuel (getNextCore idleCores).2)

/-- `UpdateHighestPriorityThreadsImpl`: the schedulers afterwards, with the mask that is returned. -/
def updateHighestPriorityThreads (env : Processes T P) (s : Schedulers T) : Option (Schedulers T) := do
  let s := { s with coresNeedingScheduling := 0, updates := [] }
  let (s, idleCores) ← [0, 1, 2, 3].foldlM (visitCore env) (s, 0)
  fillIdleCores 64 idleCores s

/-! ## 2. Setting a top thread -/

variable {s s' : Schedulers T} {core c d : Int} {thread : Option T} {t m : T} {q q' : KPriorityQueue T}
  {L : KPriorityQueue.Lists T}

theorem setTopThread_eq : s.setTopThread core thread = { s with
    topThreads := Function.update s.topThreads core thread
    highestPriorityThread := Function.update s.highestPriorityThread core thread
    needsScheduling := if s.highestPriorityThread core ≠ thread then
      Function.update s.needsScheduling core true else s.needsScheduling
    coresNeedingScheduling := s.coresNeedingScheduling |||
      if s.highestPriorityThread core ≠ thread then 1#64 <<< core.toNat else 0#64
    updates := s.updates ++ [(core, s.highestPriorityThread core, thread)] } := by
  rw [setTopThread, updateHighestPriorityThread]
  by_cases hsame : s.highestPriorityThread core = thread
  · have hself : Function.update s.highestPriorityThread core thread = s.highestPriorityThread := by
      rw [← hsame, update_eq_self]
    simp only [hsame, ne_eq, not_true_eq_false, if_false, hself]
  · simp only [hsame, ne_eq, not_false_eq_true, if_true]

@[simp] theorem queue_setTopThread : (s.setTopThread core thread).queue = s.queue := by
  rw [setTopThread_eq]

@[simp] theorem topThreads_setTopThread :
    (s.setTopThread core thread).topThreads = Function.update s.topThreads core thread := by
  rw [setTopThread_eq]

@[simp] theorem highestPriorityThread_setTopThread : (s.setTopThread core thread).highestPriorityThread =
    Function.update s.highestPriorityThread core thread := by
  rw [setTopThread_eq]

/-- **The mask has the cores whose thread changed** in some update. -/
def MaskOk (s : Schedulers T) : Prop := ∀ c, isValidCore c →
  (s.coresNeedingScheduling.getLsbD c.toNat = true ↔ ∃ prev new, (c, prev, new) ∈ s.updates ∧ prev ≠ new)

theorem MaskOk.setTopThread (h : MaskOk s) (hcore : isValidCore core) :
    MaskOk (s.setTopThread core thread) := by
  intro c hc
  have hold := h c hc
  have hinj : core.toNat = c.toNat ↔ core = c := by
    have := hc.1
    have := hcore.1
    omega
  have hlt : c.toNat < 64 := by
    have hlt := hc.2
    rw [numCores] at hlt
    omega
  rw [setTopThread_eq]
  dsimp only
  constructor
  · intro hbit
    split at hbit
    · rename_i hchange
      rw [getLsbD_or_bit, Bool.or_eq_true, decide_eq_true_eq, hinj] at hbit
      rcases hbit with hbit | ⟨rfl, -⟩
      · obtain ⟨prev, new, hmem, hne⟩ := hold.mp hbit
        exact ⟨prev, new, List.mem_append_left _ hmem, hne⟩
      · exact ⟨_, thread, List.mem_append_right _ (List.mem_singleton_self _), hchange⟩
    · rw [or_zero] at hbit
      obtain ⟨prev, new, hmem, hne⟩ := hold.mp hbit
      exact ⟨prev, new, List.mem_append_left _ hmem, hne⟩
  · intro hex
    obtain ⟨prev, new, hmem, hne⟩ := hex
    rcases List.mem_append.mp hmem with hmem | hmem
    · have hbit := hold.mpr ⟨prev, new, hmem, hne⟩
      split
      · rw [getLsbD_or_bit, hbit, Bool.true_or]
      · rw [or_zero, hbit]
    · obtain ⟨rfl, rfl, rfl⟩ := List.mem_singleton.mp hmem
      rw [if_pos hne, getLsbD_or_bit, decide_eq_true ⟨rfl, hlt⟩, Bool.or_true]

/-! ## 3. The invariant -/

/-- **What a top thread of a core is**: a runnable thread that is scheduled on the core or may run on
no other. -/
structure Chosen (q : KPriorityQueue T) (L : KPriorityQueue.Lists T) (c : Int) (t : T) : Prop where
  runnable : (q.threads t).rawState = runnable
  here : t ∈ order L c .scheduled ∨ (q.threads t).affinityMask = 1#64 <<< c.toNat

/-- The invariant of the loops: the queues are in order, only active cores have changed, and every
core has a thread that was chosen for it. -/
structure Inv (q₀ : KPriorityQueue T) (s : Schedulers T) (L : KPriorityQueue.Lists T) : Prop where
  queue : QueueInv s.queue L
  threads : ∀ t, s.queue.threads t = { q₀.threads t with activeCore := (s.queue.threads t).activeCore }
  highest : ∀ c, isValidCore c → s.highestPriorityThread c = s.topThreads c
  chosen : ∀ c t, isValidCore c → s.topThreads c = some t → Chosen s.queue L c t
  mask : MaskOk s

theorem bit_of_mem_order {k : QueueKind} (h : QueueInv q L) (ht : t ∈ order L c k) :
    0 ≤ c ∧ (q.threads t).affinityMask.getLsbD c.toNat = true ∧
      (k = .scheduled ↔ (q.threads t).activeCore = c) := by
  obtain ⟨-, -, hpl⟩ := h.mem_order.mp ht
  unfold memberPlace place at hpl
  split at hpl
  · rename_i hbit
    refine ⟨hbit.1, hbit.2, ?_⟩
    by_cases he : c = (q.threads t).activeCore
    · rw [if_pos he] at hpl
      exact iff_of_true (some.inj hpl).symm he.symm
    · rw [if_neg he] at hpl
      refine iff_of_false (fun hk => ?_) fun he' => he he'.symm
      rw [hk] at hpl
      cases hpl
  · cases hpl

theorem core_of_mask (hc : isValidCore c) (h0 : 0 ≤ d) (hmask : (q.threads t).affinityMask = 1#64 <<< c.toNat)
    (hbit : (q.threads t).affinityMask.getLsbD d.toNat = true) : c = d := by
  rw [hmask, getLsbD_one_shiftLeft, decide_eq_true_eq] at hbit
  have := hc.1
  omega

theorem Chosen.bit (h : QueueInv q L) (hc : isValidCore c) (hct : Chosen q L c t) :
    (q.threads t).affinityMask.getLsbD c.toNat = true := by
  rcases hct.here with hin | hmask
  · exact (bit_of_mem_order h hin).2.1
  · have hlt := hc.2
    rw [numCores] at hlt
    rw [hmask, getLsbD_one_shiftLeft, decide_eq_true_eq]
    omega

/-- **A thread is chosen for one core only.** -/
theorem Chosen.unique (h : QueueInv q L) (hc : isValidCore c) (hd : isValidCore d)
    (hct : Chosen q L c t) (hdt : Chosen q L d t) : c = d := by
  rcases hct.here with hin | hmask
  · rcases hdt.here with hin' | hmask'
    · rw [← (bit_of_mem_order h hin).2.2.mp rfl, ← (bit_of_mem_order h hin').2.2.mp rfl]
    · exact (core_of_mask hd hc.1 hmask' (hct.bit h hc)).symm
  · exact core_of_mask hc hd.1 hmask (hdt.bit h hd)

/-! ## 4. The first loop -/

/-- The thread that a core gets in the first loop. -/
def firstTop (env : Processes T P) (q : KPriorityQueue T) (L : KPriorityQueue.Lists T) (core : Int) :
    Option T :=
  (order L core .scheduled).head?.bind (preferPinned env q core)

/-- What the first loop has done on the cores of a list. -/
structure Visited (env : Processes T P) (q : KPriorityQueue T) (L : KPriorityQueue.Lists T)
    (cs : List Int) (s : Schedulers T) (idleCores : BitVec 64) : Prop where
  queue : s.queue = q
  top : ∀ c ∈ cs, s.topThreads c = firstTop env q L c
  highest : ∀ c ∈ cs, s.highestPriorityThread c = s.topThreads c
  idle : ∀ c, isValidCore c → (idleCores.getLsbD c.toNat = true ↔ c ∈ cs ∧ order L c .scheduled = [])
  valid : isValidMask idleCores
  mask : MaskOk s

variable {env : Processes T P} {cs : List Int} {idleCores : BitVec 64}

theorem Visited.visitCore (h : QueueInv q L) (hv : Visited env q L cs s idleCores)
    (hcore : isValidCore core) : ∃ s' idleCores', visitCore env (s, idleCores) core = some (s', idleCores') ∧
      Visited env q L (cs ++ [core]) s' idleCores' := by
  have hfront : s.queue.getScheduledFront core = some (order L core .scheduled).head? := by
    rw [hv.queue]
    exact h.front_order hcore
  have hset : ∀ {thread idle}, thread = firstTop env q L core → isValidMask idle → (∀ c, isValidCore c →
      (idle.getLsbD c.toNat = true ↔ c ∈ cs ++ [core] ∧ order L c .scheduled = [])) →
      Visited env q L (cs ++ [core]) (s.setTopThread core thread) idle := by
    intro thread idle hthread hvalid hidle
    refine ⟨by rw [queue_setTopThread, hv.queue], fun c hc => ?_, fun c hc => ?_, hidle, hvalid,
      hv.mask.setTopThread hcore⟩
    · rw [topThreads_setTopThread, update_apply]
      split
      · rename_i he
        rw [he, hthread]
      · rename_i hne
        exact hv.top c ((List.mem_append.mp hc).resolve_right fun he => hne (List.mem_singleton.mp he))
    · rw [topThreads_setTopThread, highestPriorityThread_setTopThread, update_apply, update_apply]
      split
      · rfl
      · rename_i hne
        exact hv.highest c ((List.mem_append.mp hc).resolve_right fun he =>
          hne (List.mem_singleton.mp he))
  rw [Schedulers.visitCore, hfront]
  cases horder : order L core .scheduled with
  | nil =>
    have hvalid : isValidMask (idleCores ||| 1#64 <<< core.toNat) := by
      have hbits : ∀ i : Fin 4, (1#64 <<< i.val).toNat < 2 ^ 4 := by decide
      have hcore' := hcore
      rw [isValidCore, numCores] at hcore'
      rw [isValidMask, toNat_or]
      exact Nat.or_lt_two_pow hv.valid (hbits ⟨core.toNat, by omega⟩)
    refine ⟨_, _, rfl, hset (by rw [firstTop, horder]; rfl) hvalid fun c hc => ?_⟩
    have hlt := hc.2
    rw [numCores] at hlt
    have hinj : core.toNat = c.toNat ↔ c = core := by
      have := hc.1
      have := hcore.1
      omega
    rw [getLsbD_or_bit, Bool.or_eq_true, hv.idle c hc, decide_eq_true_eq, hinj, List.mem_append,
      List.mem_singleton]
    constructor
    · intro hor
      rcases hor with ⟨hmem, hnil⟩ | ⟨rfl, -⟩
      · exact ⟨.inl hmem, hnil⟩
      · exact ⟨.inr rfl, horder⟩
    · intro hboth
      obtain ⟨hor, hnil⟩ := hboth
      rcases hor with hmem | rfl
      · exact .inl ⟨hmem, hnil⟩
      · exact .inr ⟨rfl, by omega⟩
  | cons t B =>
    refine ⟨_, _, rfl, hset (by rw [firstTop, horder, hv.queue]; rfl) hv.valid fun c hc => ?_⟩
    rw [hv.idle c hc, List.mem_append, List.mem_singleton]
    constructor
    · exact fun hboth => ⟨.inl hboth.1, hboth.2⟩
    · intro hboth
      obtain ⟨hor, hnil⟩ := hboth
      rcases hor with hmem | rfl
      · exact ⟨hmem, hnil⟩
      · rw [horder] at hnil
        cases hnil

/-- **The first loop**, by induction on the cores that are left. -/
theorem Visited.foldlM (h : QueueInv q L) {cs cs' : List Int} (hcs' : ∀ c ∈ cs', isValidCore c)
    (hv : Visited env q L cs s idleCores) : ∃ s' idleCores',
      cs'.foldlM (Schedulers.visitCore env) (s, idleCores) = some (s', idleCores') ∧
        Visited env q L (cs ++ cs') s' idleCores' := by
  induction cs' generalizing cs s idleCores with
  | nil => exact ⟨s, idleCores, rfl, by rwa [List.append_nil]⟩
  | cons core cs' ih =>
    obtain ⟨s1, idle1, hrun, hv1⟩ := hv.visitCore h (hcs' core List.mem_cons_self)
    obtain ⟨s', idle', hrun', hv'⟩ := ih (fun c hc => hcs' c (List.mem_cons_of_mem _ hc)) hv1
    refine ⟨s', idle', ?_, by rwa [List.append_assoc] at hv'⟩
    rw [List.foldlM_cons, hrun]
    exact hrun'

/-! ## 5. An idle core -/

/-- The thread is the top thread of its core. -/
def IsTop (s : Schedulers T) (t : T) : Prop :=
  0 ≤ (s.queue.threads t).activeCore ∧ s.topThreads (s.queue.threads t).activeCore = some t

/-- A core's top thread is too urgent for its core to take part in a migration. -/
def TooUrgent (s : Schedulers T) : Prop :=
  ∃ c t, s.topThreads c = some t ∧ (s.queue.threads t).priority < highestCoreMigrationAllowedPriority

variable {A B : List T}

/-- The number of candidates: they are top threads of different cores, and not of the idle one. -/
theorem length_candidates (h : QueueInv s.queue L) (hcore : isValidCore core)
    (hA : ∀ t ∈ A, t ∈ order L core .suggested ∧ IsTop s t) (hnodup : A.Nodup) : A.length < 4 := by
  have hcores : (core :: A.map fun t => (s.queue.threads t).activeCore).Nodup := by
    refine List.nodup_cons.mpr ⟨fun hmem => ?_, List.Nodup.map_on (fun t ht t' ht' heq => ?_) hnodup⟩
    · obtain ⟨t, ht, hc⟩ := List.mem_map.mp hmem
      exact absurd ((bit_of_mem_order h (hA t ht).1).2.2.mpr hc) (by decide)
    · have htop := (hA t ht).2.2
      rw [heq, (hA t' ht').2.2] at htop
      exact (some.inj htop).symm
  have hvalid : (core :: A.map fun t => (s.queue.threads t).activeCore) ⊆ [0, 1, 2, 3] := by
    intro c hc
    refine mem_cores.mpr ?_
    rcases List.mem_cons.mp hc with rfl | hc
    · exact hcore
    · obtain ⟨t, ht, rfl⟩ := List.mem_map.mp hc
      obtain ⟨hq, -, -⟩ := h.mem_order.mp (hA t ht).1
      obtain ⟨hok, -⟩ := h.ok t hq.1
      have h0 := (hA t ht).2.1
      exact isValidCore_of_getLsbD hok.mask h0 (hok.core.resolve_left (by omega)).2
  have hle := List.Nodup.length_le_of_subset hcores hvalid
  rw [List.length_cons, List.length_map] at hle
  exact Nat.lt_of_succ_le hle

/-- **The search among the suggested threads**, by induction on those that are left: it ends at the
first one that is not a top thread, and else all of them are candidates. -/
theorem searchSuggested_cases (h : QueueInv s.queue L) (hcore : isValidCore core)
    (hsplit : order L core .suggested = A ++ B) (hA : ∀ t ∈ A, IsTop s t) :
    (∃ t ∈ order L core .suggested, ¬IsTop s t ∧ s.searchSuggested core B.head?
        (A.map fun t => (s.queue.threads t).activeCore) = some (.migrate t)) ∨
      (TooUrgent s ∧ s.searchSuggested core B.head?
        (A.map fun t => (s.queue.threads t).activeCore) = some .tooUrgent) ∨
      ((∀ t ∈ order L core .suggested, IsTop s t) ∧ s.searchSuggested core B.head?
        (A.map fun t => (s.queue.threads t).activeCore) = some (.exhausted
          ((order L core .suggested).map fun t => (s.queue.threads t).activeCore))) := by
  induction B generalizing A with
  | nil =>
    rw [List.append_nil] at hsplit
    refine .inr (.inr ⟨hsplit ▸ hA, ?_⟩)
    rw [List.head?_nil, searchSuggested, hsplit]
  | cons t B ih =>
    have hmem : t ∈ order L core .suggested := hsplit ▸ List.mem_append_right _ List.mem_cons_self
    rw [List.head?_cons, searchSuggested]
    by_cases htop : IsTop s t
    · -- a top thread is noted as a candidate
      have hsame : (if (s.queue.threads t).activeCore ≥ 0 then
          s.topThreads (s.queue.threads t).activeCore else none) = some t := by
        rw [if_pos htop.1, htop.2]
      have hnodup := h.nodup_order (c := core) (k := .suggested)
      rw [hsplit] at hnodup
      have hlen : (A.map fun t => (s.queue.threads t).activeCore).length < 4 := by
        rw [List.length_map]
        exact length_candidates h hcore (fun t ht => ⟨hsplit ▸ List.mem_append_left _ ht, hA t ht⟩)
          (List.nodup_append'.mp hnodup).1
      have hnext : s.queue.getSuggestedNext core t = some B.head? := h.getNext_order hcore hsplit
      have hrec := ih (A := A ++ [t]) (by rw [List.append_assoc]; exact hsplit) fun t' ht' => by
        rcases List.mem_append.mp ht' with ht' | ht'
        · exact hA t' ht'
        · rw [List.mem_singleton.mp ht']
          exact htop
      rw [List.map_append, List.map_singleton] at hrec
      rw [hsame, if_neg (not_not.mpr rfl), if_pos hlen, hnext]
      exact hrec
    · have hother : (if (s.queue.threads t).activeCore ≥ 0 then
          s.topThreads (s.queue.threads t).activeCore else none) ≠ some t := by
        intro he
        by_cases h0 : (s.queue.threads t).activeCore ≥ 0
        · rw [if_pos h0] at he
          exact htop ⟨h0, he⟩
        · rw [if_neg h0] at he
          cases he
      rw [if_pos hother]
      by_cases hurgent : ∃ top ∈ (if (s.queue.threads t).activeCore ≥ 0 then
          s.topThreads (s.queue.threads t).activeCore else none),
          (s.queue.threads top).priority < highestCoreMigrationAllowedPriority
      · rw [if_pos hurgent]
        obtain ⟨top, htop', hlt⟩ := hurgent
        by_cases h0 : (s.queue.threads t).activeCore ≥ 0
        · rw [if_pos h0] at htop'
          exact .inr (.inl ⟨⟨_, top, htop', hlt⟩, rfl⟩)
        · rw [if_neg h0] at htop'
          cases htop'
      · rw [if_neg hurgent]
        exact .inl ⟨t, hmem, htop, rfl⟩

/-- A migration to an idle core, with the queues after it. -/
def Migrates (s : Schedulers T) (L : KPriorityQueue.Lists T) (core : Int) (t : T)
    (s' : Schedulers T) : Prop :=
  ∃ q', QueueInv q' (migrated s.queue L t core) ∧
    q'.threads = (s.queue.setThread t { s.queue.threads t with activeCore := core }).threads ∧
    s' = { s with queue := q' }.setTopThread core (some t)

theorem migrate_returns (h : QueueInv s.queue L) (ht : t ∈ order L core .suggested) :
    ∃ s', s.migrate core (s.queue.threads t).activeCore t = some s' ∧ Migrates s L core t s' := by
  obtain ⟨q', hrun, hinv, hth⟩ := h.migrate ht
  refine ⟨_, ?_, q', hinv, hth, rfl⟩
  have hchange : (s.queue.setThread t { s.queue.threads t with activeCore := core }).changeCore
      (s.queue.threads t).activeCore t false = some q' := hrun
  rw [Schedulers.migrate, hchange]
  rfl

theorem IsTop.mem_order (h : QueueInv s.queue L) (ht : t ∈ order L core .suggested) (htop : IsTop s t) :
    isValidCore (s.queue.threads t).activeCore ∧ t ∈ order L (s.queue.threads t).activeCore .scheduled := by
  obtain ⟨hq, hle, -⟩ := h.mem_order.mp ht
  obtain ⟨hok, -⟩ := h.ok t hq.1
  have hbit := (hok.core.resolve_left (by have := htop.1; omega)).2
  exact ⟨isValidCore_of_getLsbD hok.mask htop.1 hbit, h.mem_order.mpr ⟨hq, hle, place_self htop.1 hbit⟩⟩

/-- **The loop over the candidates**: the first one whose core has another thread is migrated, and
else every one is the last of its core. -/
theorem tryCandidates_cases (h : QueueInv s.queue L)
    (hB : ∀ t ∈ B, t ∈ order L core .suggested ∧ IsTop s t) :
    ∃ s', s.tryCandidates core (B.map fun t => (s.queue.threads t).activeCore) = some s' ∧
      ((s' = s ∧ ∀ t ∈ B, ∃ X, order L (s.queue.threads t).activeCore .scheduled = X ++ [t]) ∨
        ∃ t ∈ B, ∃ n X Y, order L (s.queue.threads t).activeCore .scheduled = X ++ t :: n :: Y ∧
          Migrates (s.setTopThread (s.queue.threads t).activeCore (some n)) L core t s') := by
  induction B with
  | nil => exact ⟨s, rfl, .inl ⟨rfl, fun t ht => by cases ht⟩⟩
  | cons t B ih =>
    obtain ⟨hsug, htop⟩ := hB t List.mem_cons_self
    obtain ⟨hvalid, hsched⟩ := htop.mem_order h hsug
    obtain ⟨X, Y, hXY⟩ := List.append_of_mem hsched
    have hnext : s.queue.getScheduledNext (s.queue.threads t).activeCore t = some Y.head? :=
      h.getNext_order hvalid hXY
    rw [List.map_cons, tryCandidates, htop.2]
    cases Y with
    | nil =>
      obtain ⟨s', hrun, hcases⟩ := ih fun t' ht' => hB t' (List.mem_cons_of_mem _ ht')
      refine ⟨s', by rw [bind_eq_bind, bind_some, hnext]; exact hrun, ?_⟩
      rcases hcases with ⟨hs, hlast⟩ | ⟨t', ht', hmig⟩
      · refine .inl ⟨hs, fun t' ht' => ?_⟩
        rcases List.mem_cons.mp ht' with rfl | ht'
        · exact ⟨X, hXY⟩
        · exact hlast t' ht'
      · exact .inr ⟨t', List.mem_cons_of_mem _ ht', hmig⟩
    | cons n Y =>
      have hq : (s.setTopThread (s.queue.threads t).activeCore (some n)).queue = s.queue :=
        queue_setTopThread
      obtain ⟨s', hrun, hmig⟩ := @migrate_returns T _
        (s.setTopThread (s.queue.threads t).activeCore (some n)) core t L (by rw [hq]; exact h) hsug
      rw [hq] at hrun
      refine ⟨s', by rw [bind_eq_bind, bind_some, hnext]; exact hrun, .inr ?_⟩
      exact ⟨t, List.mem_cons_self, n, X, Y, hXY, hmig⟩

/-- **What one idle core can come to**: a top thread is too urgent; or every thread that may run on it
is the last of its own core; or a thread that is not the top one is migrated; or a top thread whose core
has another one. -/
theorem fillIdleCore_cases (h : QueueInv s.queue L) (hcore : isValidCore core) :
    ∃ s', s.fillIdleCore core = some s' ∧
      ((s' = s ∧ (TooUrgent s ∨ ∀ t ∈ order L core .suggested, IsTop s t ∧
          ∃ X, order L (s.queue.threads t).activeCore .scheduled = X ++ [t])) ∨
        (∃ t ∈ order L core .suggested, ¬IsTop s t ∧ Migrates s L core t s') ∨
        ∃ t ∈ order L core .suggested, IsTop s t ∧ ∃ n X Y,
          order L (s.queue.threads t).activeCore .scheduled = X ++ t :: n :: Y ∧
            Migrates (s.setTopThread (s.queue.threads t).activeCore (some n)) L core t s') := by
  have hfront : s.queue.getSuggestedFront core = some (order L core .suggested).head? :=
    h.front_order hcore
  rw [fillIdleCore, hfront]
  rcases searchSuggested_cases h hcore (List.nil_append _).symm (fun t ht => by cases ht) with
    ⟨t, ht, htop, hsearch⟩ | ⟨hurgent, hsearch⟩ | ⟨hall, hsearch⟩
  · obtain ⟨s', hrun, hmig⟩ := migrate_returns h ht
    refine ⟨s', ?_, .inr (.inl ⟨t, ht, htop, hmig⟩)⟩
    rw [bind_eq_bind, bind_some, ← List.map_nil, hsearch]
    exact hrun
  · refine ⟨s, ?_, .inl ⟨rfl, .inl hurgent⟩⟩
    rw [bind_eq_bind, bind_some, ← List.map_nil, hsearch]
    rfl
  · obtain ⟨s', hrun, hcases⟩ := @tryCandidates_cases T _ s core L _ h fun t ht => ⟨ht, hall t ht⟩
    refine ⟨s', ?_, ?_⟩
    · rw [bind_eq_bind, bind_some, ← List.map_nil, hsearch]
      exact hrun
    · rcases hcases with ⟨hs, hlast⟩ | ⟨t, ht, hmig⟩
      · exact .inl ⟨hs, .inr fun t ht => ⟨hall t ht, hlast t ht⟩⟩
      · exact .inr (.inr ⟨t, ht, hall t ht, hmig⟩)

/-! ## 6. The invariant is kept -/

variable {q₀ : KPriorityQueue T}

theorem Inv.setTopThread (h : Inv q₀ s L) (hcore : isValidCore core)
    (hchosen : ∀ t, thread = some t → Chosen s.queue L core t) :
    Inv q₀ (s.setTopThread core thread) L := by
  refine ⟨by rw [queue_setTopThread]; exact h.queue, by rw [queue_setTopThread]; exact h.threads,
    fun c hc => ?_, fun c t hc ht => ?_, h.mask.setTopThread hcore⟩
  · rw [highestPriorityThread_setTopThread, topThreads_setTopThread, update_apply,
      update_apply, h.highest c hc]
  · rw [topThreads_setTopThread, update_apply] at ht
    rw [queue_setTopThread]
    split at ht
    · rename_i he
      rw [he]
      exact hchosen t ht
    · exact h.chosen c t hc ht

theorem chosen_of_mem (h : QueueInv q L) (ht : t ∈ order L c .scheduled) : Chosen q L c t :=
  ⟨(h.mem_order.mp ht).1.2, .inl ht⟩

theorem mem_order_migrated {k : QueueKind} {u : T} (h : QueueInv q L)
    (h' : QueueInv q' (migrated q L t core))
    (hth : q'.threads = (q.setThread t { q.threads t with activeCore := core }).threads) (hne : u ≠ t) :
    u ∈ order (migrated q L t core) c k ↔ u ∈ order L c k := by
  rw [h'.mem_order, h.mem_order, hth, setThread_other hne]

theorem Inv.migrates (h : Inv q₀ s L) (hcore : isValidCore core) (ht : t ∈ order L core .suggested)
    (hfree : ∀ c, isValidCore c → c ≠ core → s.topThreads c ≠ some t) (hmig : Migrates s L core t s') :
    Inv q₀ s' (migrated s.queue L t core) := by
  obtain ⟨q', hinv, hth, rfl⟩ := hmig
  obtain ⟨hq, hle, hpl⟩ := h.queue.mem_order.mp ht
  have hself : q'.threads t = { s.queue.threads t with activeCore := core } := by
    rw [hth, setThread_self]
  have hbit := (bit_of_mem_order h.queue ht).2.1
  have hthere : t ∈ order (migrated s.queue L t core) core .scheduled := by
    rw [hinv.mem_order, hself]
    exact ⟨hq, hle, place_self hcore.1 hbit⟩
  refine ⟨by rw [queue_setTopThread]; exact hinv, fun u => ?_, fun c hc => ?_, fun c u hc hu => ?_,
    MaskOk.setTopThread h.mask hcore⟩
  · rw [queue_setTopThread]
    dsimp only
    by_cases hu : u = t
    · rw [hu, hself, h.threads t]
    · rw [hth, setThread_other hu]
      exact h.threads u
  · rw [highestPriorityThread_setTopThread, topThreads_setTopThread, update_apply, update_apply]
    dsimp only
    rw [h.highest c hc]
  · rw [topThreads_setTopThread, update_apply] at hu
    rw [queue_setTopThread]
    dsimp only at hu ⊢
    split at hu
    · rename_i he
      rw [he, ← some.inj hu]
      exact chosen_of_mem hinv hthere
    · rename_i hne
      have hother : u ≠ t := fun he => hfree c hc hne (he ▸ hu)
      have hsame : q'.threads u = s.queue.threads u := by rw [hth, setThread_other hother]
      obtain ⟨hrun, hhere⟩ := h.chosen c u hc hu
      refine ⟨by rw [hsame]; exact hrun, ?_⟩
      rw [mem_order_migrated h.queue hinv hth hother, hsame]
      exact hhere

theorem Inv.core_of_top (h : Inv q₀ s L) (ht : t ∈ order L core .suggested) (hc : isValidCore c)
    (hne : c ≠ core) (htop : s.topThreads c = some t) : (s.queue.threads t).activeCore = c := by
  obtain ⟨h0, hbit, -⟩ := bit_of_mem_order h.queue ht
  rcases (h.chosen c t hc htop).here with hin | hmask
  · exact (bit_of_mem_order h.queue hin).2.2.mp rfl
  · exact absurd (core_of_mask hc h0 hmask hbit) hne

theorem Inv.migrates_suggested (h : Inv q₀ s L) (hcore : isValidCore core)
    (ht : t ∈ order L core .suggested) (htop : ¬IsTop s t) (hmig : Migrates s L core t s') :
    Inv q₀ s' (migrated s.queue L t core) := by
  refine h.migrates hcore ht (fun c hc hne he => htop ?_) hmig
  have hact := h.core_of_top ht hc hne he
  exact ⟨hact ▸ hc.1, by rw [hact]; exact he⟩

/-- The core of the top thread first gets the thread behind it. -/
theorem Inv.migrates_top (h : Inv q₀ s L) (hcore : isValidCore core) (ht : t ∈ order L core .suggested)
    (htop : IsTop s t) {n : T} {X Y : List T}
    (hXY : order L (s.queue.threads t).activeCore .scheduled = X ++ t :: n :: Y)
    (hmig : Migrates (s.setTopThread (s.queue.threads t).activeCore (some n)) L core t s') :
    Inv q₀ s' (migrated s.queue L t core) := by
  obtain ⟨hvalid, -⟩ := htop.mem_order h.queue ht
  have hn : n ∈ order L (s.queue.threads t).activeCore .scheduled :=
    hXY ▸ List.mem_append_right _ (List.mem_cons_of_mem _ List.mem_cons_self)
  have hnodup := h.queue.nodup_order (c := (s.queue.threads t).activeCore) (k := .scheduled)
  have hnt : n ≠ t := by
    rw [hXY] at hnodup
    have hcons := (List.nodup_append'.mp hnodup).2.1
    intro he
    exact (List.nodup_cons.mp hcons).1 (he ▸ List.mem_cons_self)
  have hset := @Inv.setTopThread T _ s (s.queue.threads t).activeCore (some n) L q₀ h hvalid
    fun u hu => by
      rw [← some.inj hu]
      exact chosen_of_mem h.queue hn
  have hinv := hset.migrates hcore ht (fun c hc hne he => ?_) hmig
  · rwa [queue_setTopThread] at hinv
  · rw [topThreads_setTopThread, update_apply] at he
    split at he
    · exact hnt (some.inj he)
    · rename_i hother
      exact hother (h.core_of_top ht hc hne he).symm

/-- **One idle core**: the round returns and keeps the invariant. -/
theorem Inv.fillIdleCore (h : Inv q₀ s L) (hcore : isValidCore core) :
    ∃ s' L', s.fillIdleCore core = some s' ∧ Inv q₀ s' L' := by
  obtain ⟨s', hrun, hcases⟩ := fillIdleCore_cases h.queue hcore
  rcases hcases with ⟨rfl, -⟩ | ⟨t, ht, htop, hmig⟩ | ⟨t, ht, htop, n, X, Y, hXY, hmig⟩
  · exact ⟨s', L, hrun, h⟩
  · exact ⟨s', _, hrun, h.migrates_suggested hcore ht htop hmig⟩
  · exact ⟨s', _, hrun, h.migrates_top hcore ht htop hXY hmig⟩

/-! ## 7. The whole update -/

theorem fillIdleCores_eq : ∀ {fuel : Nat} {idleCores : BitVec 64} {cs : List Int} {s : Schedulers T},
    nextCores fuel idleCores = some cs → s.fillIdleCores fuel idleCores = cs.foldlM fillIdleCore s
  | 0, idleCores, cs, s, h => by
    rw [nextCores] at h
    split at h
    · cases h
      rw [fillIdleCores, if_pos ‹_›]
      rfl
    · cases h
  | fuel + 1, idleCores, cs, s, h => by
    rw [nextCores] at h
    rw [fillIdleCores]
    split at h
    · cases h
      rw [if_pos ‹_›]
      rfl
    · obtain ⟨cs', hcs', rfl⟩ := map_eq_some_iff.mp h
      rw [if_neg ‹_›, List.foldlM_cons]
      exact bind_congr fun s1 => fillIdleCores_eq hcs'

theorem Inv.fillIdleCores (h : Inv q₀ s L) (hcs : ∀ c ∈ cs, isValidCore c) :
    ∃ s' L', cs.foldlM Schedulers.fillIdleCore s = some s' ∧ Inv q₀ s' L' := by
  induction cs generalizing s L with
  | nil => exact ⟨s, L, rfl, h⟩
  | cons core cs ih =>
    obtain ⟨s1, L1, hrun, h1⟩ := h.fillIdleCore (hcs core List.mem_cons_self)
    obtain ⟨s', L', hrun', h'⟩ := ih h1 fun c hc => hcs c (List.mem_cons_of_mem _ hc)
    refine ⟨s', L', ?_, h'⟩
    rw [List.foldlM_cons, hrun]
    exact hrun'

/-- A pinned thread may run on its core only. -/
def PinnedHere (env : Processes T P) (q : KPriorityQueue T) : Prop :=
  ∀ p c t, isValidCore c → env.pinnedThread p c = some t → (q.threads t).affinityMask = 1#64 <<< c.toNat

theorem chosen_firstTop (h : QueueInv q L) (hpin : PinnedHere env q) (hc : isValidCore c)
    (ht : firstTop env q L c = some t) : Chosen q L c t := by
  obtain ⟨top, htop, hprefer⟩ := bind_eq_some_iff.mp ht
  have hfront : Chosen q L c top := chosen_of_mem h (List.mem_of_mem_head? htop)
  rw [preferPinned] at hprefer
  split at hprefer
  · rwa [← some.inj hprefer]
  · split at hprefer
    · rwa [← some.inj hprefer]
    · rename_i pinned hpinned
      split at hprefer
      · split at hprefer
        · rename_i hrun
          rw [← some.inj hprefer]
          exact ⟨hrun, .inr (hpin _ c pinned hc hpinned)⟩
        · cases hprefer
      · rwa [← some.inj hprefer]

theorem firstLoop (h : QueueInv s.queue L) : ∃ s1 idleCores, [0, 1, 2, 3].foldlM (Schedulers.visitCore env)
      ({ s with coresNeedingScheduling := 0, updates := [] }, 0) = some (s1, idleCores) ∧
      Visited env s.queue L [0, 1, 2, 3] s1 idleCores := by
  have hzero : ∀ i, ¬(0 : BitVec 64).getLsbD i = true := by
    intro i
    rw [ofNat_eq_ofNat, getLsbD_zero]
    exact Bool.false_ne_true
  have hstart : Visited env s.queue L [] { s with coresNeedingScheduling := 0, updates := [] } 0 := by
    refine ⟨rfl, fun c hc => (by cases hc), fun c hc => (by cases hc), fun c hc => ?_, ?_, fun c hc => ?_⟩
    · exact iff_of_false (hzero _) fun hn => by cases hn.1
    · show (0 : BitVec 64).toNat < 16
      decide
    · exact iff_of_false (hzero _) fun ⟨_, _, hmem, _⟩ => by cases hmem
  exact hstart.foldlM h fun c hc => mem_cores.mp hc

theorem Visited.inv (hv : Visited env q L [0, 1, 2, 3] s idleCores) (h : QueueInv q L)
    (hpin : PinnedHere env q) : Inv q s L := by
  refine ⟨hv.queue ▸ h, fun t => by rw [hv.queue], fun c hc => hv.highest c (mem_cores.mpr hc),
    fun c t hc ht => ?_, hv.mask⟩
  rw [hv.top c (mem_cores.mpr hc)] at ht
  rw [hv.queue]
  exact chosen_firstTop h hpin hc ht

/-- Two threads of one process on core 1: `false` may run on core 0 too, `true` is pinned. -/
def pinnedPair : Bool → QueueMember := fun b => ⟨44, 1, if b then 2 else 3, false, 0⟩

/-- Schedulers that have no thread yet. -/
def schedulersOf (q : KPriorityQueue Bool) : Schedulers Bool :=
  ⟨q, fun _ => none, fun _ => false, fun _ => none, 0, []⟩

theorem pinnedPair_inv : QueueInv (initial pinnedPair) fun _ _ _ => [] := by
  refine queueInv_initial fun t _ => ⟨⟨?_, ?_⟩, ?_, ?_⟩
  · show (if t then (2 : BitVec 64) else 3).toNat < 16
    cases t <;> decide
  · refine .inr ⟨?_, ?_⟩
    · show (0 : Int) ≤ 1
      decide
    · show (if t then (2 : BitVec 64) else 3).getLsbD 1 = true
      cases t <;> decide
  · show (0 : Int) ≤ 44 ∧ (44 : Int) ≤ 63 + 1
    decide
  · show (0 : BitVec 16) ≠ 2
    decide

end Schedulers

end Yuzu.Kernel
