/-
  File:      Yuzu/Lib/StraightLine.lean
  Subject:   Straight-line programs in single-assignment form: each line names its result and
             reads the results of earlier lines. When one program may stand for another.
-/
import Mathlib.Data.List.Nodup

namespace Yuzu

open List

/-- **One line** of a straight-line program: the name of the result and what computes it. -/
structure Line (I : Type*) where
  id : Nat
  inst : I
  deriving DecidableEq, Repr

variable {I V : Type*} {sem : (Nat → Option V) → Nat → I → Option V}
  {earlier earlier' lines : List (Line I)} {l : Line I} {id : Nat} {i : I} {v : V}

/-! ## 1. Meaning -/

/-- The value of a name after the lines have run. The list holds the latest line first; `sem`
    computes a line from the values of the names before it. -/
def lineValue (sem : (Nat → Option V) → Nat → I → Option V) : List (Line I) → Nat → Option V
  | [], _ => none
  | l :: earlier, id =>
    if l.id = id then sem (lineValue sem earlier) id l.inst else lineValue sem earlier id

/-- The line that defines a name. -/
def lineFind : List (Line I) → Nat → Option I
  | [], _ => none
  | l :: earlier, id => if l.id = id then some l.inst else lineFind earlier id

/-- No name is defined twice. -/
def Distinct (lines : List (Line I)) : Prop := (lines.map Line.id).Nodup

/-- A line that reads more values computes the same. -/
def MonotoneSem (sem : (Nat → Option V) → Nat → I → Option V) : Prop :=
  ∀ ρ ρ' : Nat → Option V, (∀ id v, ρ id = some v → ρ' id = some v) →
    ∀ id i v, sem ρ id i = some v → sem ρ' id i = some v

/-- **Refinement**: what has a value in the one program has it in the other. -/
def Refines (sem : (Nat → Option V) → Nat → I → Option V) (lines lines' : List (Line I)) : Prop :=
  ∀ id v, lineValue sem lines id = some v → lineValue sem lines' id = some v

@[simp] theorem lineValue_self :
    lineValue sem (l :: earlier) l.id = sem (lineValue sem earlier) l.id l.inst := by
  simp [lineValue]

theorem lineValue_of_ne (h : l.id ≠ id) : lineValue sem (l :: earlier) id = lineValue sem earlier id := by
  simp [lineValue, h]

theorem lineValue_mem (h : lineValue sem lines id = some v) : id ∈ lines.map Line.id := by
  induction lines with
  | nil => cases h
  | cons l earlier ih =>
    by_cases heq : l.id = id
    · simp [heq]
    · rw [lineValue_of_ne heq] at h
      exact mem_cons_of_mem _ (ih h)

theorem lineValue_append_of_notMem (h : id ∉ lines.map Line.id) :
    lineValue sem (lines ++ earlier) id = lineValue sem earlier id := by
  induction lines with
  | nil => rfl
  | cons l lines ih =>
    simp only [map_cons, mem_cons, not_or] at h
    rw [cons_append, lineValue_of_ne (Ne.symm h.1), ih h.2]

/-! ## 2. Refinement -/

theorem Refines.refl (lines : List (Line I)) : Refines sem lines lines := fun _ _ h => h

theorem Refines.trans {a b c : List (Line I)} (h1 : Refines sem a b) (h2 : Refines sem b c) :
    Refines sem a c := fun id v h => h2 id v (h1 id v h)

theorem Refines.fresh (h : l.id ∉ earlier.map Line.id) : Refines sem earlier (l :: earlier) := by
  intro id v hv
  have hne : l.id ≠ id := fun heq => h (heq ▸ lineValue_mem hv)
  rw [lineValue_of_ne hne, hv]

theorem Refines.suffix (hd : Distinct (lines ++ earlier)) : Refines sem earlier (lines ++ earlier) := by
  intro id v hv
  rw [Distinct, map_append] at hd
  rw [lineValue_append_of_notMem fun hmem => disjoint_of_nodup_append hd hmem (lineValue_mem hv), hv]

theorem Refines.replace {l' : Line I} (hbelow : Refines sem earlier earlier') (hid : l'.id = l.id)
    (hkeep : ∀ v, sem (lineValue sem earlier) l.id l.inst = some v →
      sem (lineValue sem earlier') l'.id l'.inst = some v) :
    Refines sem (l :: earlier) (l' :: earlier') := by
  intro id v hv
  by_cases heq : l.id = id
  · subst heq
    rw [← hid, lineValue_self]
    rw [lineValue_self] at hv
    exact hkeep v hv
  · rw [lineValue_of_ne heq] at hv
    rw [lineValue_of_ne (hid ▸ heq)]
    exact hbelow id v hv

/-- **Refinement is kept by the lines that follow.** -/
theorem Refines.append (hmono : MonotoneSem sem) (h : Refines sem earlier earlier') :
    Refines sem (lines ++ earlier) (lines ++ earlier') := by
  induction lines with
  | nil => exact h
  | cons l lines ih => exact ih.replace rfl fun v hv => hmono _ _ ih _ _ v hv

/-! ## 3. Where a value comes from -/

/-- **A value is that of the line that defines it**, read after all lines have run. -/
theorem lineValue_find (hmono : MonotoneSem sem) (hd : Distinct lines)
    (hv : lineValue sem lines id = some v) :
    ∃ i, lineFind lines id = some i ∧ sem (lineValue sem lines) id i = some v := by
  induction lines with
  | nil => cases hv
  | cons l earlier ih =>
    obtain ⟨hfresh, hd⟩ := nodup_cons.mp hd
    have hext : Refines sem earlier (l :: earlier) := Refines.fresh hfresh
    by_cases heq : l.id = id
    · subst heq
      rw [lineValue_self] at hv
      exact ⟨l.inst, by simp [lineFind], hmono _ _ hext _ _ v hv⟩
    · rw [lineValue_of_ne heq] at hv
      obtain ⟨i, hfind, hsem⟩ := ih hd hv
      exact ⟨i, by simpa [lineFind, heq] using hfind, hmono _ _ hext _ _ v hsem⟩

theorem Distinct.tail (h : Distinct (l :: earlier)) : Distinct earlier := (nodup_cons.mp h).2

theorem Distinct.head (h : Distinct (l :: earlier)) : l.id ∉ earlier.map Line.id :=
  (nodup_cons.mp h).1

end Yuzu
