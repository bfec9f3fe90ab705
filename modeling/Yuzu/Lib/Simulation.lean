/-
  File:      Yuzu/Lib/Simulation.lean
  Subject:   Two systems that each take one step after another and write a log: when one step of
             the first is some steps of the second, they write the same log.
-/
import Mathlib.Data.List.Infix

namespace Yuzu

open Function

variable {S T O : Type*}

/-! ## 1. Runs -/

/-- `t` is reached from `s` in some steps. -/
def Reaches (step : S → S) (s t : S) : Prop := ∃ n, step^[n] s = t

namespace Reaches

variable {step : S → S} {s t u : S}

theorem refl (s : S) : Reaches step s s := ⟨0, rfl⟩

theorem trans (h : Reaches step s t) (h' : Reaches step t u) : Reaches step s u := by
  obtain ⟨n, rfl⟩ := h
  obtain ⟨m, rfl⟩ := h'
  exact ⟨m + n, iterate_add_apply step m n s⟩

theorem head (h : Reaches step (step s) t) : Reaches step s t := by
  obtain ⟨n, rfl⟩ := h
  exact ⟨n + 1, rfl⟩

theorem of_ne (h : Reaches step s t) (hne : s ≠ t) : Reaches step (step s) t := by
  obtain ⟨n, hn⟩ := h
  cases n with
  | zero => exact absurd hn hne
  | succ n => exact ⟨n, hn⟩

end Reaches

/-! ## 2. Logs -/

/-- Nothing is taken back from a log. -/
def Grows (step : S → S) (log : S → List O) : Prop := ∀ s, log s <+: log (step s)

theorem Grows.iterate {step : S → S} {log : S → List O} (h : Grows step log) (s : S) (n : Nat) :
    log s <+: log (step^[n] s) := by
  induction n with
  | zero => exact List.prefix_refl _
  | succ n ih =>
    rw [iterate_succ_apply']
    exact ih.trans (h _)

theorem Grows.iterate_le {step : S → S} {log : S → List O} (h : Grows step log) (s : S)
    {n m : Nat} (hnm : n ≤ m) : log (step^[n] s) <+: log (step^[m] s) := by
  obtain ⟨k, rfl⟩ := Nat.exists_eq_add_of_le hnm
  rw [Nat.add_comm, iterate_add_apply]
  exact h.iterate _ _

theorem Grows.entry_unique {step : S → S} {log : S → List O} (h : Grows step log) (s : S)
    {n m k : Nat} {o o' : O} (ho : (log (step^[n] s))[k]? = some o)
    (ho' : (log (step^[m] s))[k]? = some o') : o = o' := by
  wlog hnm : n ≤ m generalizing n m o o'
  · exact (this ho' ho (by omega)).symm
  obtain ⟨hk, rfl⟩ := List.getElem?_eq_some_iff.mp ho
  rw [List.prefix_iff_getElem?.mp (h.iterate_le s hnm) k hk] at ho'
  exact Option.some.inj ho'

/-- **The step rule**: each step of the first system is at least one step of the second. -/
structure Simulates (step : S → S) (step' : T → T) (log : S → List O) (log' : T → List O)
    (R : S → T → Prop) : Prop where
  sim : ∀ s t, R s t → ∃ t', Reaches step' (step' t) t' ∧ R (step s) t'
  same : ∀ s t, R s t → log s = log' t
  grows : Grows step' log'

namespace Simulates

variable {step : S → S} {step' : T → T} {log : S → List O} {log' : T → List O}
  {R : S → T → Prop} {s : S} {t : T}

theorem run (h : Simulates step step' log log' R) (h0 : R s t) (n : Nat) :
    ∃ m, n ≤ m ∧ R (step^[n] s) (step'^[m] t) := by
  induction n with
  | zero => exact ⟨0, le_rfl, h0⟩
  | succ n ih =>
    obtain ⟨m, hm, hR⟩ := ih
    obtain ⟨t', ⟨k, hk⟩, hR'⟩ := h.sim _ _ hR
    refine ⟨k + 1 + m, by omega, ?_⟩
    rw [iterate_succ_apply', iterate_add_apply, iterate_succ_apply, hk]
    exact hR'

/-- **The run rule**: an entry is in one log at some time iff it is in the other at some time. -/
theorem log_iff (h : Simulates step step' log log' R) (h0 : R s t) (k : Nat) (o : O) :
    (∃ n, (log (step^[n] s))[k]? = some o) ↔ ∃ n, (log' (step'^[n] t))[k]? = some o := by
  constructor
  · rintro ⟨n, hn⟩
    obtain ⟨m, -, hR⟩ := h.run h0 n
    exact ⟨m, by rw [← h.same _ _ hR]; exact hn⟩
  · rintro ⟨n, hn⟩
    obtain ⟨m, hm, hR⟩ := h.run h0 n
    refine ⟨n, ?_⟩
    rw [h.same _ _ hR]
    obtain ⟨hk, rfl⟩ := List.getElem?_eq_some_iff.mp hn
    exact List.prefix_iff_getElem?.mp (h.grows.iterate_le t hm) k hk

end Simulates

end Yuzu
