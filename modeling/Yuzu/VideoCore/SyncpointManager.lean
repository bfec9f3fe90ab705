/-
  File:      Yuzu/VideoCore/SyncpointManager.lean
  Subject:   `Host1x::SyncpointManager` (host1x/syncpoint_manager.cpp) for one syncpoint: any number of
             calls of `Increment`, `RegisterAction`, `DeregisterAction` and `Wait`, each atomic access
             and each section under the guard a step of its own.

  A call appears in the state when its first access has happened and it is not over: an `Increment`
  between its `fetch_add` and its section, a `RegisterAction` between its first load and its end, a
  `Wait` from its first check on. Actions are numbered in the order of their `RegisterAction` calls;
  which of them ran, with what the counter was, and which were erased by `DeregisterAction` is kept
  as history. A handle is a list iterator: a new entry gets one that no entry has, but an old one
  can come back.
-/
import Mathlib.Data.List.Sort
import Yuzu.Lib.Trace
import Mathlib.Algebra.Order.Ring.Int

namespace Yuzu.VideoCore.Syncpoint

/-! ## 1. The pending list -/

/-- `RegisteredAction` with its place in the list: `handle` is what an iterator to it compares equal
to. -/
structure RegisteredAction where
  handle : Nat
  action : Nat
  expectedValue : Nat
  deriving DecidableEq, Repr

/-- The order of the pending list. -/
def Earlier (a b : RegisteredAction) : Prop := a.expectedValue ≤ b.expectedValue

instance : DecidableRel Earlier := fun a b => inferInstanceAs (Decidable (a.expectedValue ≤ b.expectedValue))

instance : Std.Total Earlier := ⟨fun a b => Nat.le_total a.expectedValue b.expectedValue⟩

instance : IsTrans RegisteredAction Earlier := ⟨fun _ _ _ => Nat.le_trans⟩

/-- The loop of `Increment`: the actions it runs, from the front, and the ones it leaves. -/
def runReached (newValue : Nat) : List RegisteredAction → List RegisteredAction × List RegisteredAction
  | [] => ([], [])
  | it :: storage =>
    if it.expectedValue > newValue then ([], it :: storage)
    else (it :: (runReached newValue storage).1, (runReached newValue storage).2)

/-- The loop and the `emplace` of `RegisterAction`: in front of the first entry that does not expect
less. -/
def emplaceAction (entry : RegisteredAction) (storage : List RegisteredAction) : List RegisteredAction :=
  storage.orderedInsert Earlier entry

/-- The loop of `DeregisterAction`: the entry it erases, if the handle is one of the list's. -/
def eraseHandle (handle : Nat) : List RegisteredAction → Option RegisteredAction × List RegisteredAction
  | [] => (none, [])
  | it :: storage =>
    if it.handle = handle then (some it, storage)
    else ((eraseHandle handle storage).1, it :: (eraseHandle handle storage).2)

/-! ## 2. The state -/

/-- A `RegisterAction` under way: its first load had reached the value and it is about to run its
action, or it had not and the call is about to take the guard. -/
structure Registering where
  action : Nat
  expectedValue : Nat
  reached : Bool
  deriving DecidableEq, Repr

/-- Where a `Wait` stands after its first check. -/
inductive WaitPhase where
  /-- About to take the guard. -/
  | checked
  /-- Blocked in the condition variable. -/
  | blocked
  /-- Woken, about to take the guard again. -/
  | woken
  deriving DecidableEq, Repr

/-- A `Wait` under way. -/
structure Waiting where
  expectedValue : Nat
  phase : WaitPhase
  deriving DecidableEq, Repr

/-- One run of an action, and what the counter was. -/
structure RunRecord where
  action : Nat
  expectedValue : Nat
  counter : Nat
  deriving DecidableEq, Repr

/-- One syncpoint and the calls on it. -/
structure State where
  counter : Nat
  storage : List RegisteredAction
  /-- The new values of the `Increment`s between their `fetch_add` and their section. -/
  increments : List Nat
  registering : List Registering
  waiting : List Waiting
  /-- History: how often `fetch_add` happened, the expected value of each action passed to
  `RegisterAction`, the runs, and the actions erased by `DeregisterAction`. -/
  fetched : Nat
  registered : List Nat
  runs : List RunRecord
  deregistered : List Nat

/-- A syncpoint at zero that nobody uses yet. -/
def initial : State := ⟨0, [], [], [], [], 0, [], [], []⟩

/-! ## 3. The steps -/

/-- What happens next, with the position of the call it belongs to. -/
inductive Action where
  | incrementFetch
  | incrementSection (i : Nat)
  | registerLoad (expectedValue : Nat)
  | registerRun (i : Nat)
  | registerSection (i : Nat) (handle : Nat)
  | deregister (handle : Nat)
  | waitLoad (expectedValue : Nat)
  | waitSection (i : Nat)
  | wakeSpuriously (i : Nat)
  deriving DecidableEq, Repr

/-- `notify_all`, or a spurious wake-up. -/
def Waiting.wake (w : Waiting) : Waiting :=
  match w.phase with
  | .blocked => { w with phase := .woken }
  | _ => w

namespace State

/-- The run of an action, in the history. -/
def runNow (s : State) (action expectedValue : Nat) : RunRecord := ⟨action, expectedValue, s.counter⟩

/-- `fetch_add(1) + 1`, in 32 bits. -/
def incrementFetch (s : State) : State :=
  let newValue := (s.counter + 1) % 2 ^ 32
  { s with counter := newValue, increments := s.increments ++ [newValue], fetched := s.fetched + 1 }

/-- The section of `Increment`. -/
def incrementSection (s : State) (i newValue : Nat) : State :=
  let (ran, left) := runReached newValue s.storage
  { s with
    storage := left
    runs := s.runs ++ ran.map (fun it => s.runNow it.action it.expectedValue)
    increments := s.increments.eraseIdx i
    waiting := s.waiting.map Waiting.wake }

/-- The first load of `RegisterAction`. -/
def registerLoad (s : State) (expectedValue : Nat) : State :=
  { s with
    registering := s.registering ++
      [⟨s.registered.length, expectedValue, decide (s.counter ≥ expectedValue)⟩]
    registered := s.registered ++ [expectedValue] }

/-- The call's `action()` after a first load that had reached the value, and its end. -/
def registerRun (s : State) (i : Nat) (r : Registering) : State :=
  { s with
    registering := s.registering.eraseIdx i
    runs := s.runs ++ [s.runNow r.action r.expectedValue] }

/-- The section of `RegisterAction`: the second load, and the action run or stored. -/
def registerSection (s : State) (i : Nat) (r : Registering) (handle : Nat) : State :=
  if s.counter ≥ r.expectedValue then
    s.registerRun i r
  else
    { s with
      registering := s.registering.eraseIdx i
      storage := emplaceAction ⟨handle, r.action, r.expectedValue⟩ s.storage }

/-- `DeregisterAction`. -/
def deregister (s : State) (handle : Nat) : State :=
  match eraseHandle handle s.storage with
  | (none, _) => s
  | (some it, storage) =>
    { s with storage := storage, deregistered := s.deregistered ++ [it.action] }

/-- The first check of `Wait`: the call is over, or it goes for the guard. -/
def waitLoad (s : State) (expectedValue : Nat) : State :=
  if s.counter ≥ expectedValue then s
  else { s with waiting := s.waiting ++ [⟨expectedValue, .checked⟩] }

/-- `wait_cv.wait(lk, pred)` from one taking of the guard to the next: the call is over, or it blocks. -/
def waitSection (s : State) (i : Nat) (w : Waiting) : State :=
  if s.counter ≥ w.expectedValue then { s with waiting := s.waiting.eraseIdx i }
  else { s with waiting := s.waiting.set i { w with phase := .blocked } }

/-- One step; none if the call named is not there or not that far. -/
def step (s : State) : Action → Option State
  | .incrementFetch => some s.incrementFetch
  | .incrementSection i => s.increments[i]?.map (s.incrementSection i)
  | .registerLoad expectedValue => some (s.registerLoad expectedValue)
  | .registerRun i =>
    match s.registering[i]? with
    | some r => if r.reached then some (s.registerRun i r) else none
    | none => none
  | .registerSection i handle =>
    match s.registering[i]? with
    | some r =>
      if r.reached = false ∧ handle ∉ s.storage.map (·.handle) then
        some (s.registerSection i r handle)
      else none
    | none => none
  | .deregister handle => some (s.deregister handle)
  | .waitLoad expectedValue => some (s.waitLoad expectedValue)
  | .waitSection i =>
    match s.waiting[i]? with
    | some w => if w.phase = .blocked then none else some (s.waitSection i w)
    | none => none
  | .wakeSpuriously i =>
    match s.waiting[i]? with
    | some w => some { s with waiting := s.waiting.set i w.wake }
    | none => none

end State

/-- A run of calls on one syncpoint, interleaved in any way. -/
abbrev Run (as : List Action) (s : State) : Prop :=
  Path (fun s a s' => State.step s a = some s') initial as s

end Yuzu.VideoCore.Syncpoint
