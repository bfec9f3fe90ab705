/-
  File:      Yuzu/VideoCore/InvalidationAccumulator.lean
  Subject:   THE INVALIDATION ACCUMULATOR (video_core/invalidation_accumulator.h): the ranges that
             cached writes add, gathered in runs until the caches are flushed.

  * `add_spec` -- what one `Add` does to the open run and to the bytes collected so far;
  * `adds_covered` -- after calls that meet their condition every added byte is passed to the
    callback, and a single call is covered exactly under the condition.
-/
import Yuzu.Lib.Trace
import Mathlib.Algebra.Order.Ring.Int

namespace Yuzu.VideoCore

open List

/-! ## 1. The accumulator -/

def atomicitySize : Nat := 32

/-- `& atomicity_mask`. -/
def atomicityMask (x : Nat) : Nat := x / atomicitySize * atomicitySize

/-- Addresses and sizes have 64 bits. -/
def wrap64 (x : Nat) : Nat := x % 2 ^ 64

structure InvalidationAccumulator where
  startAddress : Nat
  lastCollection : Nat
  accumulatedSize : Nat
  hasCollected : Bool
  buffer : List (Nat × Nat)
  deriving DecidableEq, Repr

namespace InvalidationAccumulator

/-- The lambda `reset_values`: the open run is closed, and the range opens the next. -/
def resetValues (acc : InvalidationAccumulator) (address size : Nat) : InvalidationAccumulator where
  startAddress := address
  lastCollection := wrap64 (address + size)
  accumulatedSize := size
  hasCollected := acc.hasCollected
  buffer := if acc.hasCollected then acc.buffer ++ [(acc.startAddress, acc.accumulatedSize)]
    else acc.buffer

/-- The size that `Add` works with: up to the end of the last unit, from the address given. -/
def roundedSize (address size : Nat) : Nat :=
  wrap64 (atomicityMask (wrap64 (address + size + (atomicitySize - 1))) + 2 ^ 64 - address)

def add (acc : InvalidationAccumulator) (address size : Nat) : InvalidationAccumulator :=
  if acc.startAddress ≤ address ∧ wrap64 (address + size) ≤ acc.lastCollection then acc
  else
    let size := roundedSize address size
    let address := atomicityMask address
    if acc.hasCollected = false then
      { acc.resetValues address size with hasCollected := true }
    else if address ≠ acc.lastCollection then acc.resetValues address size
    else { acc with
      accumulatedSize := wrap64 (acc.accumulatedSize + size)
      lastCollection := wrap64 (acc.lastCollection + size) }

def clear (acc : InvalidationAccumulator) : InvalidationAccumulator :=
  { acc with buffer := [], startAddress := 0, lastCollection := 0, hasCollected := false }

/-- The ranges that `Callback` passes to its function, in order. -/
def callback (acc : InvalidationAccumulator) : List (Nat × Nat) :=
  if acc.hasCollected then acc.buffer ++ [(acc.startAddress, acc.accumulatedSize)] else []

/-! ## 2. Covered bytes -/

/-- A byte of one of the ranges. -/
def Covers (ranges : List (Nat × Nat)) (x : Nat) : Prop := ∃ r ∈ ranges, r.1 ≤ x ∧ x < r.1 + r.2

/-- The range ends where its last unit can still be addressed. -/
def Fits (c : Nat × Nat) : Prop := c.1 + c.2 + (atomicitySize - 1) < 2 ^ 64

/-- **When a call is covered**: it has no bytes, lies in the open run, or its address is no further
from the start of its unit than its end is from the end of the last one. -/
def Meets (acc : InvalidationAccumulator) (c : Nat × Nat) : Prop :=
  c.2 = 0 ∨ (acc.startAddress ≤ c.1 ∧ c.1 + c.2 ≤ acc.lastCollection) ∨
    c.1 % atomicitySize + (c.1 + c.2) ≤ atomicityMask (c.1 + c.2 + (atomicitySize - 1))

instance (acc : InvalidationAccumulator) (c : Nat × Nat) : Decidable (acc.Meets c) := by
  unfold Meets
  infer_instance

/-- The open run ends where its size says; without one both ends are 0. -/
def Inv (acc : InvalidationAccumulator) : Prop :=
  acc.lastCollection < 2 ^ 64 ∧
    (acc.hasCollected = true → acc.lastCollection = acc.startAddress + acc.accumulatedSize) ∧
    (acc.hasCollected = false → acc.startAddress = 0 ∧ acc.lastCollection = 0)

variable {acc : InvalidationAccumulator} {address size x : Nat} {c : Nat × Nat}

theorem wrap64_of_lt (h : x < 2 ^ 64) : wrap64 x = x := Nat.mod_eq_of_lt h

theorem inv_clear : acc.clear.Inv := by
  simp [clear, Inv]

theorem callback_clear : acc.clear.callback = [] := rfl

theorem rounded (h : Fits (address, size)) :
    atomicityMask address + roundedSize address size + address % atomicitySize =
        atomicityMask (address + size + (atomicitySize - 1)) ∧
      address ≤ atomicityMask address + address % atomicitySize ∧
      atomicityMask address ≤ address ∧
      address + size ≤ atomicityMask (address + size + (atomicitySize - 1)) ∧
      atomicityMask (address + size + (atomicitySize - 1)) < 2 ^ 64 := by
  have hfits : address + size + 31 < 2 ^ 64 := h
  simp only [roundedSize, atomicityMask, atomicitySize, wrap64]
  rw [Nat.mod_eq_of_lt hfits]
  refine ⟨?_, ?_, ?_, ?_, ?_⟩
  · rw [show (address + size + (32 - 1)) / 32 * 32 + 2 ^ 64 - address =
      ((address + size + (32 - 1)) / 32 * 32 - address) + 2 ^ 64 by omega, Nat.add_mod_right]
    rw [Nat.mod_eq_of_lt (by omega)]
    omega
  all_goals omega

/-- **One call.** The open run stays in order, no covered byte is lost, and the call's bytes lie in
the run that is open after it exactly when the call meets its condition. -/
theorem add_spec (hinv : acc.Inv) (h : Fits (address, size)) : (acc.add address size).Inv ∧
    (∀ x, Covers acc.callback x → Covers (acc.add address size).callback x) ∧
    (acc.Meets (address, size) ↔ size = 0 ∨ ((acc.add address size).hasCollected = true ∧
        (acc.add address size).startAddress ≤ address ∧
        address + size ≤ (acc.add address size).lastCollection)) := by
  obtain ⟨hround, hunit, hle, hend, hbound⟩ := rounded h
  obtain ⟨hlast, hrun, hnone⟩ := hinv
  have hfits : address + size + 31 < 2 ^ 64 := h
  have hcut : (address % atomicitySize + (address + size) ≤
      atomicityMask (address + size + (atomicitySize - 1))) ↔
      address + size ≤ atomicityMask address + roundedSize address size := by omega
  rw [add]
  split
  · -- the range lies in the open run
    rename_i hin
    rw [wrap64_of_lt (by omega)] at hin
    refine ⟨⟨hlast, hrun, hnone⟩, fun x hx => hx, ?_⟩
    refine iff_of_true (.inr (.inl hin)) ?_
    by_cases hc : acc.hasCollected = true
    · exact .inr ⟨hc, hin⟩
    · have hzero := hnone (by simpa using hc)
      exact .inl (by omega)
  · rename_i hout
    rw [wrap64_of_lt (by omega)] at hout
    dsimp only
    split
    · -- the first range
      rename_i hc
      have hzero := hnone hc
      refine ⟨?_, fun x hx => ?_, ?_⟩
      · simp only [Inv, resetValues]
        rw [wrap64_of_lt (by omega)]
        exact ⟨by omega, fun _ => rfl, fun hfalse => absurd hfalse (by decide)⟩
      · obtain ⟨r, hr, -⟩ := hx
        simp [callback, hc] at hr
      · simp only [Meets, resetValues]
        rw [wrap64_of_lt (by omega), hcut]
        simp only [true_and]
        constructor
        · intro hm
          omega
        · intro hm
          omega
    · rename_i hc
      have hc : acc.hasCollected = true := by simpa using hc
      have hrun := hrun hc
      split
      · -- the open run is closed
        refine ⟨?_, fun x hx => ?_, ?_⟩
        · simp only [Inv, resetValues]
          rw [wrap64_of_lt (by omega)]
          exact ⟨by omega, fun _ => rfl, fun hfalse => absurd (hc.symm.trans hfalse) (by decide)⟩
        · simp only [callback, hc, if_true, resetValues] at hx ⊢
          obtain ⟨r, hr, hxr⟩ := hx
          exact ⟨r, mem_append_left _ hr, hxr⟩
        · simp only [Meets, resetValues]
          rw [wrap64_of_lt (by omega), hcut]
          simp only [hc, true_and]
          constructor
          · intro hm
            omega
          · intro hm
            omega
      · -- the open run grows
        rename_i hnext
        have hnext : atomicityMask address = acc.lastCollection := by simpa using hnext
        refine ⟨?_, fun x hx => ?_, ?_⟩
        · simp only [Inv]
          rw [wrap64_of_lt (by omega), wrap64_of_lt (by omega)]
          exact ⟨by omega, fun _ => by omega,
            fun hfalse => absurd (hc.symm.trans hfalse) (by decide)⟩
        · simp only [callback, hc, if_true] at hx ⊢
          rw [wrap64_of_lt (by omega)]
          obtain ⟨r, hr, hxr⟩ := hx
          rcases mem_append.mp hr with hr | hr
          · exact ⟨r, mem_append_left _ hr, hxr⟩
          · rw [mem_singleton.mp hr] at hxr
            refine ⟨_, mem_append_right _ mem_cons_self, hxr.1, ?_⟩
            exact lt_of_lt_of_le hxr.2 (by dsimp only; omega)
        · simp only [Meets]
          rw [wrap64_of_lt (by omega), hcut]
          simp only [hc, true_and]
          constructor
          · intro hm
            omega
          · intro hm
            omega

theorem covers_of_meets (hinv : acc.Inv) (h : Fits (address, size))
    (hm : acc.Meets (address, size)) (hx : address ≤ x) (hx' : x < address + size) :
    Covers (acc.add address size).callback x := by
  obtain ⟨⟨-, hrun, -⟩, -, hiff⟩ := add_spec hinv h
  rcases hiff.mp hm with hzero | ⟨hc, hstart, hlast⟩
  · omega
  · have hrun := hrun hc
    simp only [callback, hc, if_true]
    exact ⟨_, mem_append_right _ mem_cons_self, by dsimp only; omega,
      by dsimp only; omega⟩

/-- A step of a run: the call has no answer. -/
def addCall (acc : InvalidationAccumulator) (c : Nat × Nat) : Unit × InvalidationAccumulator :=
  ((), acc.add c.1 c.2)

/-! ## 3. Runs -/

theorem run_covers {calls : List (Nat × Nat)} (hinv : acc.Inv) (hfits : ∀ c ∈ calls, Fits c)
    (hmeets : AllSteps addCall Meets acc calls) :
    (∀ x, Covers acc.callback x → Covers (after addCall acc calls).callback x) ∧
    ∀ c ∈ calls, ∀ x, c.1 ≤ x → x < c.1 + c.2 → Covers (after addCall acc calls).callback x := by
  induction calls generalizing acc with
  | nil => exact ⟨fun x hx => hx, fun c hc => absurd hc not_mem_nil⟩
  | cons c calls ih =>
    obtain ⟨hm, hrest⟩ := hmeets
    have hc := hfits c mem_cons_self
    obtain ⟨hinv', hkeep, -⟩ := add_spec hinv hc
    obtain ⟨hlater, hall⟩ := ih hinv' (fun d hd => hfits d (mem_cons_of_mem _ hd)) hrest
    refine ⟨fun x hx => hlater x (hkeep x hx), fun d hd x hx hx' => ?_⟩
    rcases mem_cons.mp hd with rfl | hd
    · exact hlater x (covers_of_meets hinv hc hm hx hx')
    · exact hall d hd x hx hx'

/-- **Every added byte reaches the callback** after calls that all meet their condition, and a single
call after a clear is covered exactly under it. -/
theorem adds_covered (acc : InvalidationAccumulator) :
    (∀ calls : List (Nat × Nat), (∀ c ∈ calls, Fits c) → AllSteps addCall Meets acc.clear calls →
      ∀ c ∈ calls, ∀ x, c.1 ≤ x → x < c.1 + c.2 → Covers (after addCall acc.clear calls).callback x) ∧
    ∀ c, Fits c → ((∀ x, c.1 ≤ x → x < c.1 + c.2 →
      Covers (after addCall acc.clear [c]).callback x) ↔ acc.clear.Meets c) := by
  refine ⟨fun calls hfits hmeets => (run_covers inv_clear hfits hmeets).2, fun c hc => ?_⟩
  constructor
  · intro hall
    obtain ⟨⟨-, hrun, -⟩, -, hiff⟩ := @add_spec acc.clear c.1 c.2 inv_clear hc
    refine hiff.mpr ?_
    by_cases hzero : c.2 = 0
    · exact .inl hzero
    · -- the first and the last byte lie in the one range there is
      have hrange : ∀ x, Covers (acc.clear.add c.1 c.2).callback x →
          (acc.clear.add c.1 c.2).hasCollected = true ∧ (acc.clear.add c.1 c.2).startAddress ≤ x ∧
            x < (acc.clear.add c.1 c.2).lastCollection := by
        intro x hx
        obtain ⟨r, hr, hxr⟩ := hx
        by_cases hc' : (acc.clear.add c.1 c.2).hasCollected = true
        · have hrun := hrun hc'
          have hbuffer : (acc.clear.add c.1 c.2).buffer = [] := by
            rw [add]
            split
            · rfl
            · simp [clear, resetValues]
          simp only [callback, hc', if_true, hbuffer, nil_append, mem_singleton] at hr
          subst hr
          exact ⟨hc', hxr.1, by omega⟩
        · simp [callback, hc'] at hr
      obtain ⟨hcol, hstart, -⟩ := hrange c.1 (hall c.1 le_rfl (by omega))
      obtain ⟨-, -, hlast⟩ := hrange (c.1 + c.2 - 1) (hall _ (by omega) (by omega))
      exact .inr ⟨hcol, hstart, by omega⟩
  · intro hm x hx hx'
    exact covers_of_meets inv_clear hc hm hx hx'

/-- An accumulator without a run. -/
def empty : InvalidationAccumulator := ⟨0, 0, 0, false, []⟩

/-- Two aligned writes behind each other and one inside the first. -/
theorem adds_covered_aligned :
    Covers (after addCall empty.clear [(64, 32), (96, 10), (70, 4)]).callback 105 := by
  have hfits : ∀ c ∈ [(64, 32), (96, 10), (70, 4)], Fits c := by
    simp [Fits, atomicitySize]
  have hmeets : AllSteps addCall Meets empty.clear [(64, 32), (96, 10), (70, 4)] :=
    ⟨by decide, by decide, by decide, trivial⟩
  exact (adds_covered empty).1 _ hfits hmeets (96, 10) (by simp) 105 (by decide) (by decide)

/-- A write that is not aligned: its last byte is in no range. -/
theorem unaligned_add_uncovered :
    ¬∀ (acc : InvalidationAccumulator) (calls : List (Nat × Nat)), (∀ c ∈ calls, Fits c) →
      ∀ c ∈ calls, ∀ x, c.1 ≤ x → x < c.1 + c.2 → Covers (after addCall acc.clear calls).callback x := by
  intro hall
  have hbyte := hall empty [(33, 31)] (by simp [Fits, atomicitySize]) (33, 31) (by simp) 63
    (by decide) (by decide)
  obtain ⟨r, hr, -, hlt⟩ := hbyte
  have hranges : (after addCall empty.clear [(33, 31)]).callback = [(32, 31)] := by decide
  rw [hranges, mem_singleton] at hr
  subst hr
  exact absurd hlt (by decide)

end InvalidationAccumulator

end Yuzu.VideoCore
