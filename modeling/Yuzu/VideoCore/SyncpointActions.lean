/-
  File:      Yuzu/VideoCore/SyncpointActions.lean
  Subject:   Actions on a syncpoint run once and never early, and nobody waits for a value that has
             been reached, in every interleaving of calls.

  * `Announced`: a value the counter has not reached, or that an `Increment` has reached which is
    still to come to its section. What is pending, or blocked, is announced (`Inv.pending`,
    `Inv.blocked`).
  * `Inv.places`: every action passed to `RegisterAction` is in exactly one place: with its call, in
    the pending list, among the runs, or among the erased ones.
-/
import Yuzu.VideoCore.SyncpointManager
import Mathlib.Data.List.Perm.Basic
import Mathlib.Data.List.Range

namespace Yuzu.VideoCore.Syncpoint

open List

/-! ## 1. The loops over the pending list -/

theorem runReached_append (v : Nat) (storage : List RegisteredAction) :
    (runReached v storage).1 ++ (runReached v storage).2 = storage := by
  induction storage with
  | nil => rfl
  | cons it storage ih =>
    unfold runReached
    split
    · rfl
    · exact congrArg (it :: ·) ih

theorem le_of_mem_ran {v : Nat} {storage : List RegisteredAction} {it : RegisteredAction}
    (h : it ∈ (runReached v storage).1) : it.expectedValue ≤ v := by
  induction storage with
  | nil => cases h
  | cons a storage ih =>
    unfold runReached at h
    split at h
    · cases h
    · next hle =>
        rcases mem_cons.mp h with rfl | h
        · omega
        · exact ih h

theorem lt_of_mem_left {v : Nat} {storage : List RegisteredAction} (hsorted : storage.Pairwise Earlier)
    {it : RegisteredAction} (h : it ∈ (runReached v storage).2) : v < it.expectedValue := by
  induction storage with
  | nil => cases h
  | cons a storage ih =>
    obtain ⟨ha, hsorted⟩ := pairwise_cons.mp hsorted
    unfold runReached at h
    split at h
    · next hgt =>
        rcases mem_cons.mp h with rfl | h
        · exact hgt
        · exact Nat.lt_of_lt_of_le hgt (ha it h)
    · exact ih hsorted h

theorem eraseHandle_perm {handle : Nat} {storage storage' : List RegisteredAction} {it : RegisteredAction}
    (h : eraseHandle handle storage = (some it, storage')) :
    storage.Perm (it :: storage') ∧ storage'.Sublist storage := by
  induction storage generalizing storage' with
  | nil => cases h
  | cons a storage ih =>
    unfold eraseHandle at h
    split at h
    · cases h
      exact ⟨.refl _, sublist_cons_self _ _⟩
    · obtain ⟨hsome, rfl⟩ := Prod.mk.inj h
      obtain ⟨hperm, hsub⟩ := ih (Prod.ext hsome rfl)
      exact ⟨(hperm.cons a).trans (.swap it a _), hsub.cons_cons a⟩

theorem perm_cons_eraseIdx {β : Type} {l : List β} {i : Nat} {b : β} (h : l[i]? = some b) :
    l.Perm (b :: l.eraseIdx i) := by
  obtain ⟨hlt, rfl⟩ := List.getElem?_eq_some_iff.mp h
  exact (getElem_cons_eraseIdx_perm hlt).symm

/-! ## 2. The invariant -/

/-- A value that is still to be announced: the counter is below it, or an `Increment` that reached it
has its section before it. -/
def State.Announced (s : State) (value : Nat) : Prop :=
  s.counter < value ∨ ∃ v ∈ s.increments, value ≤ v

/-- Where the actions are. -/
def State.places (s : State) : List Nat :=
  s.registering.map Registering.action ++ (s.storage.map RegisteredAction.action ++
    (s.runs.map RunRecord.action ++ s.deregistered))

/-- The state of a syncpoint between two steps, while the counter has not wrapped. -/
structure Inv (s : State) : Prop where
  counter_eq : s.counter = s.fetched
  increments_le : ∀ v ∈ s.increments, v ≤ s.counter
  places : s.places.Perm (List.range s.registered.length)
  registering_expected : ∀ r ∈ s.registering, s.registered[r.action]? = some r.expectedValue
  storage_expected : ∀ it ∈ s.storage, s.registered[it.action]? = some it.expectedValue
  runs_expected : ∀ r ∈ s.runs, s.registered[r.action]? = some r.expectedValue
  reached : ∀ r ∈ s.registering, r.reached = true → r.expectedValue ≤ s.counter
  sorted : s.storage.Pairwise Earlier
  notEarly : ∀ r ∈ s.runs, r.expectedValue ≤ r.counter
  pending : ∀ it ∈ s.storage, s.Announced it.expectedValue
  blocked : ∀ w ∈ s.waiting, w.phase = .blocked → s.Announced w.expectedValue

theorem inv_initial : Inv initial where
  counter_eq := rfl
  increments_le _ h := absurd h not_mem_nil
  places := .refl _
  registering_expected _ h := absurd h not_mem_nil
  storage_expected _ h := absurd h not_mem_nil
  runs_expected _ h := absurd h not_mem_nil
  reached _ h := absurd h not_mem_nil
  sorted := .nil
  notEarly _ h := absurd h not_mem_nil
  pending _ h := absurd h not_mem_nil
  blocked _ h := absurd h not_mem_nil

variable {s s' : State}

/-! ## 3. Every step -/

/-- `fetch_add`: what it reaches is announced by the `Increment` itself. -/
theorem Inv.incrementFetch (h : Inv s) (hlt : s.fetched + 1 < 2 ^ 32) : Inv s.incrementFetch := by
  have hmod : (s.counter + 1) % 2 ^ 32 = s.counter + 1 := Nat.mod_eq_of_lt (by rw [h.counter_eq]; exact hlt)
  have hann : ∀ v, s.Announced v → s.incrementFetch.Announced v := by
    intro v hv
    unfold State.Announced State.incrementFetch
    simp only [hmod]
    rcases hv with hv | ⟨x, hx, hle⟩
    · rcases Nat.lt_or_eq_of_le (Nat.succ_le_of_lt hv) with hv | rfl
      · exact .inl hv
      · exact .inr ⟨_, mem_append_right _ (mem_singleton_self _), Nat.le_refl _⟩
    · exact .inr ⟨x, mem_append_left _ hx, hle⟩
  refine ⟨?_, ?_, h.places, h.registering_expected, h.storage_expected, h.runs_expected, ?_, h.sorted,
    h.notEarly, fun it hit => hann _ (h.pending it hit), fun w hw hb => hann _ (h.blocked w hw hb)⟩
  · show (s.counter + 1) % 2 ^ 32 = s.fetched + 1
    rw [hmod, h.counter_eq]
  · intro v hv
    show v ≤ (s.counter + 1) % 2 ^ 32
    rw [hmod]
    rcases mem_append.mp hv with hv | hv
    · exact Nat.le_succ_of_le (h.increments_le v hv)
    · rw [mem_singleton.mp hv, hmod]
  · intro r hr hreached
    show _ ≤ (s.counter + 1) % 2 ^ 32
    rw [hmod]
    exact Nat.le_succ_of_le (h.reached r hr hreached)

theorem not_blocked_wake (w : Waiting) : w.wake.phase ≠ .blocked := by
  unfold Waiting.wake
  cases hw : w.phase <;> simp [hw]

/-- The section of `Increment`: what it leaves pending was announced by another one. -/
theorem Inv.incrementSection (h : Inv s) {i v : Nat} (hi : s.increments[i]? = some v) :
    Inv (s.incrementSection i v) := by
  have happend := runReached_append v s.storage
  have hv := h.increments_le v (mem_of_getElem? hi)
  have hperm := perm_cons_eraseIdx hi
  have hsub : (runReached v s.storage).2.Sublist s.storage := by
    have hright := sublist_append_right (runReached v s.storage).1 (runReached v s.storage).2
    rwa [happend] at hright
  unfold State.incrementSection
  refine ⟨h.counter_eq, ?_, ?_, h.registering_expected, ?_, ?_, h.reached, ?_, ?_, ?_, ?_⟩
  · exact fun x hx => h.increments_le x (mem_of_mem_eraseIdx hx)
  · refine List.Perm.trans (perm_iff_count.mpr fun a => ?_) h.places
    have hcount := congrArg (fun l => (l.map RegisteredAction.action).count a) happend
    simp only [map_append, count_append] at hcount
    simp only [State.places, map_append, map_map, count_append]
    have hran : (RunRecord.action ∘ fun it : RegisteredAction => s.runNow it.action it.expectedValue) =
        RegisteredAction.action := rfl
    rw [hran]
    omega
  · intro it hit
    exact h.storage_expected it (happend ▸ mem_append_right _ hit)
  · intro r hr
    rcases mem_append.mp hr with hr | hr
    · exact h.runs_expected r hr
    · obtain ⟨it, hit, rfl⟩ := mem_map.mp hr
      exact h.storage_expected it (happend ▸ mem_append_left _ hit)
  · exact h.sorted.sublist hsub
  · intro r hr
    rcases mem_append.mp hr with hr | hr
    · exact h.notEarly r hr
    · obtain ⟨it, hit, rfl⟩ := mem_map.mp hr
      exact Nat.le_trans (le_of_mem_ran hit) hv
  · intro it hit
    have hgt := lt_of_mem_left h.sorted hit
    refine (h.pending it (happend ▸ mem_append_right _ hit)).imp_right ?_
    rintro ⟨x, hx, hle⟩
    rcases mem_cons.mp (hperm.mem_iff.mp hx) with rfl | hx
    · omega
    · exact ⟨x, hx, hle⟩
  · intro w hw hb
    obtain ⟨w, -, rfl⟩ := mem_map.mp hw
    exact absurd hb (not_blocked_wake w)

theorem getElem?_registered {l : List Nat} {a e x : Nat} (h : l[a]? = some e) : (l ++ [x])[a]? = some e := by
  rw [List.getElem?_append_left (List.getElem?_eq_some_iff.mp h).1]
  exact h

theorem Inv.registerLoad (h : Inv s) (e : Nat) : Inv (s.registerLoad e) := by
  unfold State.registerLoad
  refine ⟨h.counter_eq, h.increments_le, ?_, ?_, fun it hit => getElem?_registered (h.storage_expected it hit),
    fun r hr => getElem?_registered (h.runs_expected r hr), ?_, h.sorted, h.notEarly, h.pending, h.blocked⟩
  · refine perm_iff_count.mpr fun a => ?_
    have hcount := h.places.count_eq a
    simp only [State.places, count_append] at hcount
    simp only [State.places, map_append, map_cons, map_nil, count_append,
      length_append, length_singleton, range_succ]
    omega
  · intro r hr
    rcases mem_append.mp hr with hr | hr
    · exact getElem?_registered (h.registering_expected r hr)
    · rw [mem_singleton.mp hr]
      exact List.getElem?_concat_length
  · intro r hr hreached
    rcases mem_append.mp hr with hr | hr
    · exact h.reached r hr hreached
    · obtain rfl := mem_singleton.mp hr
      exact of_decide_eq_true hreached

theorem Inv.registerRun (h : Inv s) {i : Nat} {r : Registering} (hi : s.registering[i]? = some r)
    (hle : r.expectedValue ≤ s.counter) : Inv (s.registerRun i r) := by
  have hperm := perm_cons_eraseIdx hi
  unfold State.registerRun
  refine ⟨h.counter_eq, h.increments_le, ?_,
    fun x hx => h.registering_expected x (mem_of_mem_eraseIdx hx), h.storage_expected, ?_,
    fun x hx => h.reached x (mem_of_mem_eraseIdx hx), h.sorted, ?_, h.pending, h.blocked⟩
  · refine List.Perm.trans (perm_iff_count.mpr fun a => ?_) h.places
    have hcount := (hperm.map Registering.action).count_eq a
    simp only [map_cons, count_cons] at hcount
    simp only [State.places, map_append, map_cons, map_nil, count_append, count_singleton, State.runNow]
    omega
  · intro x hx
    rcases mem_append.mp hx with hx | hx
    · exact h.runs_expected x hx
    · rw [mem_singleton.mp hx]
      exact h.registering_expected r (mem_of_getElem? hi)
  · intro x hx
    rcases mem_append.mp hx with hx | hx
    · exact h.notEarly x hx
    · rw [mem_singleton.mp hx]
      exact hle

theorem Inv.registerSection (h : Inv s) {i handle : Nat} {r : Registering}
    (hi : s.registering[i]? = some r) : Inv (s.registerSection i r handle) := by
  unfold State.registerSection
  split
  · next hge => exact h.registerRun hi hge
  · next hlt =>
      have hperm := perm_cons_eraseIdx hi
      have hinsert := perm_orderedInsert Earlier (⟨handle, r.action, r.expectedValue⟩ : RegisteredAction)
        s.storage
      refine ⟨h.counter_eq, h.increments_le, ?_,
        fun x hx => h.registering_expected x (mem_of_mem_eraseIdx hx), ?_, h.runs_expected,
        fun x hx => h.reached x (mem_of_mem_eraseIdx hx), h.sorted.orderedInsert _ _, h.notEarly, ?_,
        h.blocked⟩
      · refine List.Perm.trans (perm_iff_count.mpr fun a => ?_) h.places
        have hcount := (hperm.map Registering.action).count_eq a
        have hcount' := (hinsert.map RegisteredAction.action).count_eq a
        simp only [map_cons, count_cons] at hcount hcount'
        simp only [State.places, count_append, emplaceAction]
        omega
      · intro it hit
        rcases mem_cons.mp (hinsert.mem_iff.mp hit) with rfl | hit
        · exact h.registering_expected r (mem_of_getElem? hi)
        · exact h.storage_expected it hit
      · intro it hit
        rcases mem_cons.mp (hinsert.mem_iff.mp hit) with rfl | hit
        · exact .inl (Nat.lt_of_not_le hlt)
        · exact h.pending it hit

theorem Inv.deregister (h : Inv s) (handle : Nat) : Inv (s.deregister handle) := by
  unfold State.deregister
  split
  · exact h
  · next it storage herase =>
      obtain ⟨hperm, hsub⟩ := eraseHandle_perm herase
      refine ⟨h.counter_eq, h.increments_le, ?_, h.registering_expected,
        fun x hx => h.storage_expected x (hsub.subset hx), h.runs_expected, h.reached,
        h.sorted.sublist hsub, h.notEarly, fun x hx => h.pending x (hsub.subset hx), h.blocked⟩
      refine List.Perm.trans (perm_iff_count.mpr fun a => ?_) h.places
      have hcount := (hperm.map RegisteredAction.action).count_eq a
      simp only [map_cons, count_cons] at hcount
      simp only [State.places, count_append, count_singleton]
      omega

theorem Inv.setWaiting (h : Inv s) {waiting : List Waiting}
    (hb : ∀ w ∈ waiting, w.phase = .blocked → s.Announced w.expectedValue) :
    Inv { s with waiting := waiting } :=
  ⟨h.counter_eq, h.increments_le, h.places, h.registering_expected, h.storage_expected, h.runs_expected,
    h.reached, h.sorted, h.notEarly, h.pending, hb⟩

theorem Inv.waitLoad (h : Inv s) (e : Nat) : Inv (s.waitLoad e) := by
  unfold State.waitLoad
  split
  · exact h
  · refine h.setWaiting fun w hw hb => ?_
    rcases mem_append.mp hw with hw | hw
    · exact h.blocked w hw hb
    · rw [mem_singleton.mp hw] at hb
      cases hb

theorem Inv.waitSection (h : Inv s) (i : Nat) (w : Waiting) : Inv (s.waitSection i w) := by
  unfold State.waitSection
  split
  · exact h.setWaiting fun x hx => h.blocked x (mem_of_mem_eraseIdx hx)
  · next hlt =>
      refine h.setWaiting fun x hx hb => ?_
      rcases mem_or_eq_of_mem_set hx with hx | rfl
      · exact h.blocked x hx hb
      · exact .inl (Nat.lt_of_not_le hlt)

/-- **Every step** keeps the invariant, as long as the counter does not wrap. -/
theorem inv_step {a : Action} (h : Inv s) (hs : s.step a = some s') (hlt : s'.fetched < 2 ^ 32) : Inv s' := by
  cases a with
  | incrementFetch =>
    cases hs
    exact h.incrementFetch hlt
  | incrementSection i =>
    obtain ⟨v, hi, rfl⟩ := Option.map_eq_some_iff.mp hs
    exact h.incrementSection hi
  | registerLoad e =>
    cases hs
    exact h.registerLoad e
  | registerRun i =>
    simp only [State.step] at hs
    split at hs
    · next r hi =>
        split at hs
        · next hreached =>
            cases hs
            exact h.registerRun hi (h.reached r (mem_of_getElem? hi) hreached)
        · cases hs
    · cases hs
  | registerSection i handle =>
    simp only [State.step] at hs
    split at hs
    · next r hi =>
        split at hs
        · cases hs
          exact h.registerSection hi
        · cases hs
    · cases hs
  | deregister handle =>
    cases hs
    exact h.deregister handle
  | waitLoad e =>
    cases hs
    exact h.waitLoad e
  | waitSection i =>
    simp only [State.step] at hs
    split at hs
    · next w hi =>
        split at hs
        · cases hs
        · cases hs
          exact h.waitSection i w
    · cases hs
  | wakeSpuriously i =>
    simp only [State.step] at hs
    split at hs
    · next w hi =>
        cases hs
        refine h.setWaiting fun x hx hb => ?_
        rcases mem_or_eq_of_mem_set hx with hx | rfl
        · exact h.blocked x hx hb
        · exact absurd hb (not_blocked_wake w)
    · cases hs

/-! ## 4. Every run -/

theorem fetched_step {a : Action} (hs : s.step a = some s') :
    s'.fetched = s.fetched + if a = .incrementFetch then 1 else 0 := by
  cases a with
  | incrementFetch => cases hs; rfl
  | incrementSection i =>
    obtain ⟨v, -, rfl⟩ := Option.map_eq_some_iff.mp hs
    rfl
  | registerLoad e => cases hs; rfl
  | registerRun i =>
    simp only [State.step] at hs
    split at hs
    · split at hs <;> cases hs
      rfl
    · cases hs
  | registerSection i handle =>
    simp only [State.step] at hs
    split at hs
    · split at hs <;> cases hs
      unfold State.registerSection
      split <;> rfl
    · cases hs
  | deregister handle =>
    cases hs
    unfold State.deregister
    split <;> rfl
  | waitLoad e =>
    cases hs
    unfold State.waitLoad
    split <;> rfl
  | waitSection i =>
    simp only [State.step] at hs
    split at hs
    · split at hs <;> cases hs
      unfold State.waitSection
      split <;> rfl
    · cases hs
  | wakeSpuriously i =>
    simp only [State.step] at hs
    split at hs <;> cases hs
    rfl

theorem inv_path {as : List Action} (h : Path (fun s a s' => State.step s a = some s') s as s') (hi : Inv s)
    (hlt : s.fetched + as.count .incrementFetch < 2 ^ 32) : Inv s' := by
  induction h with
  | nil s => exact hi
  | @cons s t u a as hstep _ ih =>
    have hfetched := fetched_step hstep
    have hcount : (a :: as).count .incrementFetch =
        as.count .incrementFetch + if a = .incrementFetch then 1 else 0 := by
      rw [count_cons]
      by_cases ha : a = .incrementFetch <;> simp [ha]
    rw [hcount] at hlt
    exact ih (inv_step hi hstep (by omega)) (by omega)

/-- **What the users of a syncpoint rely on**, in one state. -/
structure Reliable (s : State) : Prop where
  /-- No action has run twice. -/
  once : (s.runs.map RunRecord.action).Nodup
  /-- Each run was of an action passed to `RegisterAction`, and not before its value was reached. -/
  notEarly : ∀ r ∈ s.runs, s.registered[r.action]? = some r.expectedValue ∧ r.expectedValue ≤ r.counter
  /-- With no `Increment` and no `RegisterAction` under way, what was reached and not deregistered has
  run. -/
  ran : s.increments = [] → s.registering = [] → ∀ a e, s.registered[a]? = some e → e ≤ s.counter →
    a ∉ s.deregistered → ∃ r ∈ s.runs, r.action = a
  sorted : s.storage.Pairwise Earlier
  /-- With no `Increment` under way, nobody is blocked on a value that was reached. -/
  notBlocked : s.increments = [] → ∀ w ∈ s.waiting, w.phase = .blocked → s.counter < w.expectedValue

theorem State.Announced.lt {v : Nat} (h : s.Announced v) (hnone : s.increments = []) : s.counter < v := by
  rcases h with h | ⟨x, hx, -⟩
  · exact h
  · rw [hnone] at hx
    cases hx

theorem Inv.reliable (h : Inv s) : Reliable s where
  once := by
    have hnodup := h.places.nodup_iff.mpr nodup_range
    have hruns : (s.runs.map RunRecord.action).Sublist s.places :=
      ((sublist_append_left _ _).trans (sublist_append_right _ _)).trans (sublist_append_right _ _)
    exact hnodup.sublist hruns
  notEarly r hr := ⟨h.runs_expected r hr, h.notEarly r hr⟩
  ran hinc hreg a e ha hle hnot := by
    have hmem : a ∈ s.places :=
      h.places.mem_iff.mpr (mem_range.mpr (List.getElem?_eq_some_iff.mp ha).1)
    rw [State.places, hreg, map_nil, nil_append] at hmem
    rcases mem_append.mp hmem with hmem | hmem
    · -- a pending action is one whose value was not reached
      obtain ⟨it, hit, rfl⟩ := mem_map.mp hmem
      obtain rfl := Option.some.inj ((h.storage_expected it hit).symm.trans ha)
      have := (h.pending it hit).lt hinc
      omega
    · rcases mem_append.mp hmem with hmem | hmem
      · exact mem_map.mp hmem
      · exact absurd hmem hnot
  sorted := h.sorted
  notBlocked hinc w hw hb := (h.blocked w hw hb).lt hinc

/-- **Syncpoint actions**: in every state of every interleaving with fewer than `2 ^ 32` increments. -/
theorem run_reliable (as : List Action) (s : State) (h : Run as s)
    (hlt : as.count .incrementFetch < 2 ^ 32) : Reliable s :=
  (inv_path h inv_initial (by
    show 0 + as.count .incrementFetch < 2 ^ 32
    omega)).reliable

/-- An action stored and a thread blocked, both reached by one `Increment`. -/
theorem run_reliable_of_increment : ∃ s : State, s.runs = [⟨0, 1, 1⟩] ∧ Reliable s :=
  ⟨_, rfl, run_reliable
    [.registerLoad 1, .waitLoad 1, .registerSection 0 9, .waitSection 0, .incrementFetch, .incrementSection 0] _
    (.cons rfl (.cons rfl (.cons rfl (.cons rfl (.cons rfl (.cons rfl (.nil _))))))) (by decide)⟩

end Yuzu.VideoCore.Syncpoint
