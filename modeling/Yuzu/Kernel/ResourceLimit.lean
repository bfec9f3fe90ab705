/-
  File:      Yuzu/Kernel/ResourceLimit.lean
  Subject:   `KResourceLimit` (k_resource_limit.cpp): limits, current values, hints and peaks, and its
             users as a machine of lock-protected sections.

  `Reserve` gives its lock up inside `m_cond_var.Wait`, so it is two sections: from the call to the
  first wait, and from a wake-up to the next wait. Its timeout and what the hardware timer shows are
  arbitrary (the overload without a timeout passes the timer's tick plus ten seconds). A failed
  ASSERT and an addition that overflows 64 bits have no result.
-/
import Yuzu.Lib.Assert
import Yuzu.Lib.Trace
import Yuzu.Lib.Accounts

namespace Yuzu.Kernel

/-! ## 1. Signed arithmetic -/

/-- `a + b` on `s64`, where it does not overflow. -/
def addS64 (a b : Int64) : Option Int64 :=
  if -2 ^ 63 ≤ a.toInt + b.toInt ∧ a.toInt + b.toInt < 2 ^ 63 then some (a + b) else none

/-- `a - b` on `s64`, where it does not overflow. -/
def subS64 (a b : Int64) : Option Int64 :=
  if -2 ^ 63 ≤ a.toInt - b.toInt ∧ a.toInt - b.toInt < 2 ^ 63 then some (a - b) else none

/-- `Common::WrappingAdd`. -/
def wrappingAdd (a b : Int64) : Int64 := a + b

/-- `std::max` on `s64`. -/
def maxS64 (a b : Int64) : Int64 := if a < b then b else a

variable {a b : Int64}

theorem addS64_of_lt (ha : 0 ≤ a.toInt) (hb : 0 ≤ b.toInt) (h : a.toInt + b.toInt < 2 ^ 63) :
    ∃ c, addS64 a b = some c ∧ c.toInt = a.toInt + b.toInt := by
  refine ⟨a + b, if_pos ⟨by omega, h⟩, ?_⟩
  rw [Int64.toInt_add, Int.bmod_eq_of_le (by omega) (by omega)]

theorem subS64_of_le (hb : 0 ≤ b.toInt) (h : b.toInt ≤ a.toInt) :
    ∃ c, subS64 a b = some c ∧ c.toInt = a.toInt - b.toInt := by
  have ha := a.toInt_lt
  refine ⟨a - b, if_pos ⟨by omega, by omega⟩, ?_⟩
  rw [Int64.toInt_sub, Int.bmod_eq_of_le (by omega) (by omega)]

/-- **The overflow guard of `Reserve`**: a sum that wraps is not above its first summand. -/
theorem wrappingAdd_guard (ha : 0 ≤ a.toInt) (hb : 0 ≤ b.toInt) (h : ¬wrappingAdd a b ≤ a) :
    0 < b.toInt ∧ a.toInt + b.toInt < 2 ^ 63 := by
  have ha' := a.toInt_lt
  have hb' := b.toInt_lt
  rw [Int64.le_iff_toInt_le, wrappingAdd, Int64.toInt_add, Int.bmod_def] at h
  omega

theorem toInt_maxS64 : (maxS64 a b).toInt = max a.toInt b.toInt := by
  unfold maxS64
  split
  · next h =>
      rw [Int64.lt_iff_toInt_lt] at h
      omega
  · next h =>
      rw [Int64.lt_iff_toInt_lt] at h
      omega

/-! ## 2. The resource limit -/

/-- `Svc::LimitableResource`. -/
inductive LimitableResource where
  | physicalMemoryMax
  | threadCountMax
  | eventCountMax
  | transferMemoryCountMax
  | sessionCountMax
  deriving DecidableEq, Repr

/-- `KResourceLimit`. -/
structure KResourceLimit where
  limitValues : LimitableResource → Int64
  currentValues : LimitableResource → Int64
  currentHints : LimitableResource → Int64
  peakValues : LimitableResource → Int64
  waiterCount : Int

/-- How one section of `Reserve` ends. -/
inductive Reserve where
  | reserved
  | refused
  | waits
  deriving DecidableEq, Repr

namespace KResourceLimit

/-- A new resource limit. -/
def new : KResourceLimit where
  limitValues _ := 0
  currentValues _ := 0
  currentHints _ := 0
  peakValues _ := 0
  waiterCount := 0

/-- What each getter asserts, of the value it is to return. -/
def getterAsserts (r : KResourceLimit) (which : LimitableResource) (value : Int64) : Option Unit := do
  assert (0 ≤ value)
  assert (r.currentValues which ≤ r.limitValues which)
  assert (r.currentHints which ≤ r.currentValues which)

/-- `GetLimitValue`. -/
def getLimitValue (r : KResourceLimit) (which : LimitableResource) : Option Int64 := do
  r.getterAsserts which (r.limitValues which)
  pure (r.limitValues which)

/-- `GetCurrentValue`. -/
def getCurrentValue (r : KResourceLimit) (which : LimitableResource) : Option Int64 := do
  r.getterAsserts which (r.currentValues which)
  pure (r.currentValues which)

/-- `GetPeakValue`. -/
def getPeakValue (r : KResourceLimit) (which : LimitableResource) : Option Int64 := do
  r.getterAsserts which (r.peakValues which)
  pure (r.peakValues which)

/-- `GetFreeValue`; what it asserts to be nonnegative is the current value. -/
def getFreeValue (r : KResourceLimit) (which : LimitableResource) : Option Int64 := do
  r.getterAsserts which (r.currentValues which)
  subS64 (r.limitValues which) (r.currentValues which)

/-- `SetLimitValue`; `false` is `ResultInvalidState`. -/
def setLimitValue (r : KResourceLimit) (which : LimitableResource) (value : Int64) :
    Bool × KResourceLimit :=
  if r.currentValues which ≤ value then
    (true, { r with
      limitValues := Function.update r.limitValues which value
      peakValues := Function.update r.peakValues which (r.currentValues which) })
  else (false, r)

/-- The loop of `Reserve` up to its next wait or its end. -/
def reserveTurn (r : KResourceLimit) (which : LimitableResource) (value timeout tick : Int64) :
    Option (Reserve × KResourceLimit) := do
  assert (r.currentValues which ≤ r.limitValues which)
  assert (r.currentHints which ≤ r.currentValues which)
  if wrappingAdd (r.currentValues which) value ≤ r.currentValues which then
    pure (.refused, r)
  else do
    let sum ← addS64 (r.currentValues which) value
    if sum ≤ r.limitValues which then do
      let current ← addS64 (r.currentValues which) value
      let hint ← addS64 (r.currentHints which) value
      pure (.reserved, { r with
        currentValues := Function.update r.currentValues which current
        currentHints := Function.update r.currentHints which hint
        peakValues := Function.update r.peakValues which (maxS64 (r.peakValues which) current) })
    else do
      let hintSum ← addS64 (r.currentHints which) value
      if hintSum ≤ r.limitValues which ∧ (timeout < 0 ∨ tick < timeout) then
        pure (.waits, { r with waiterCount := r.waiterCount + 1 })
      else
        pure (.refused, r)

/-- `Reserve` from its call to its first wait or its end. -/
def reserve (r : KResourceLimit) (which : LimitableResource) (value timeout tick : Int64) :
    Option (Reserve × KResourceLimit) := do
  assert (0 ≤ value)
  assert (r.currentHints which ≤ r.currentValues which)
  if r.limitValues which ≤ r.currentHints which then
    pure (.refused, r)
  else
    r.reserveTurn which value timeout tick

/-- `Reserve` from a wake-up to the next wait or its end. -/
def reserveResume (r : KResourceLimit) (which : LimitableResource) (value timeout tick : Int64) :
    Option (Reserve × KResourceLimit) :=
  { r with waiterCount := r.waiterCount - 1 }.reserveTurn which value timeout tick

/-- `Release` of a value and a hint; waking the waiters changes nothing here. -/
def release (r : KResourceLimit) (which : LimitableResource) (value hint : Int64) :
    Option KResourceLimit := do
  assert (0 ≤ value)
  assert (0 ≤ hint)
  assert (r.currentValues which ≤ r.limitValues which)
  assert (r.currentHints which ≤ r.currentValues which)
  assert (value ≤ r.currentValues which)
  assert (hint ≤ r.currentHints which)
  let current ← subS64 (r.currentValues which) value
  let currentHint ← subS64 (r.currentHints which) hint
  pure { r with
    currentValues := Function.update r.currentValues which current
    currentHints := Function.update r.currentHints which currentHint }

end KResourceLimit

/-! ## 3. Its users -/

/-- A successful reservation that is not released; its hint may be. -/
structure Reservation where
  which : LimitableResource
  value : Int64
  hintHeld : Bool

/-- A `Reserve` inside `m_cond_var.Wait`. -/
structure WaitingReserve where
  which : LimitableResource
  value : Int64
  timeout : Int64

/-- The resource limit, the reservations outstanding and the calls that wait. -/
structure LimitUsers where
  limit : KResourceLimit
  outstanding : List Reservation
  waiting : List WaitingReserve

/-- The lock-protected sections, with the position of the reservation or the waiting call they are
about. -/
inductive LimitAction where
  | getLimitValue (which : LimitableResource)
  | getCurrentValue (which : LimitableResource)
  | getPeakValue (which : LimitableResource)
  | getFreeValue (which : LimitableResource)
  | setLimitValue (which : LimitableResource) (value : Int64)
  | reserve (which : LimitableResource) (value timeout tick : Int64)
  | resume (i : Nat) (tick : Int64)
  | release (i : Nat)
  | releaseHint (i : Nat)
  | releaseValue (i : Nat)

namespace LimitUsers

/-- Nothing reserved, no limit set. -/
def start : LimitUsers := ⟨.new, [], []⟩

/-- The users after a section of `Reserve`. -/
def afterReserve (s : LimitUsers) (w : WaitingReserve) : Reserve × KResourceLimit → LimitUsers
  | (.reserved, r) =>
    { s with limit := r, outstanding := s.outstanding ++ [⟨w.which, w.value, true⟩] }
  | (.refused, r) => { s with limit := r }
  | (.waits, r) => { s with limit := r, waiting := s.waiting ++ [w] }

/-- One section; none if an ASSERT fails, an addition overflows, or there is no such reservation or
call. -/
def locked (s : LimitUsers) : LimitAction → Option LimitUsers
  | .getLimitValue which => do
    let _ ← s.limit.getLimitValue which
    pure s
  | .getCurrentValue which => do
    let _ ← s.limit.getCurrentValue which
    pure s
  | .getPeakValue which => do
    let _ ← s.limit.getPeakValue which
    pure s
  | .getFreeValue which => do
    let _ ← s.limit.getFreeValue which
    pure s
  | .setLimitValue which value =>
    some { s with limit := (s.limit.setLimitValue which value).2 }
  | .reserve which value timeout tick => do
    let done ← s.limit.reserve which value timeout tick
    pure (s.afterReserve ⟨which, value, timeout⟩ done)
  | .resume i tick => do
    let w ← s.waiting[i]?
    let done ← s.limit.reserveResume w.which w.value w.timeout tick
    pure ({ s with waiting := s.waiting.eraseIdx i }.afterReserve w done)
  | .release i => do
    let h ← s.outstanding[i]?
    let r ← s.limit.release h.which h.value h.value
    pure { s with limit := r, outstanding := s.outstanding.eraseIdx i }
  | .releaseHint i => do
    let h ← s.outstanding[i]?
    let r ← s.limit.release h.which 0 h.value
    pure { s with limit := r, outstanding := s.outstanding.set i { h with hintHeld := false } }
  | .releaseValue i => do
    let h ← s.outstanding[i]?
    let r ← s.limit.release h.which h.value 0
    pure { s with limit := r, outstanding := s.outstanding.eraseIdx i }

/-- A section as a step that says whether it went through. -/
def step (s : LimitUsers) (a : LimitAction) : Bool × LimitUsers :=
  match s.locked a with
  | some s' => (true, s')
  | none => (false, s)

/-- **The discipline of the users**: requests are not negative, only a waiting call wakes up, and a
reservation is released at once, or its hint first and its value later. -/
def Disciplined (s : LimitUsers) : LimitAction → Prop
  | .reserve _ value _ _ => 0 ≤ value
  | .resume i _ => i < s.waiting.length
  | .release i => ∃ h, s.outstanding[i]? = some h ∧ h.hintHeld = true
  | .releaseHint i => ∃ h, s.outstanding[i]? = some h ∧ h.hintHeld = true
  | .releaseValue i => ∃ h, s.outstanding[i]? = some h ∧ h.hintHeld = false
  | _ => True

end LimitUsers

end Yuzu.Kernel
