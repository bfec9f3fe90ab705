/-
  File:      Yuzu/Lib/Trace.lean
  Subject:   Machines that take one request after another and answer each: the state after a list
             of requests, the replies, and what every step of a run keeps.
-/
import Mathlib.Data.List.Basic

namespace Yuzu

open List

variable {S A O : Type*} (step : S → A → O × S)

/-- The state after the requests. -/
def after (s : S) (as : List A) : S := as.foldl (fun s a => (step s a).2) s

/-- The replies to the requests, in order. -/
def replies : S → List A → List O
  | _, [] => []
  | s, a :: as => (step s a).1 :: replies (step s a).2 as

/-- Every step of the run is taken in a state that meets the condition with its request. -/
def AllSteps (P : S → A → Prop) : S → List A → Prop
  | _, [] => True
  | s, a :: as => P s a ∧ AllSteps P (step s a).2 as

variable {step} {s : S} {P : S → A → Prop}

@[simp] theorem after_nil : after step s [] = s := rfl

@[simp] theorem after_cons (a : A) (as : List A) :
    after step s (a :: as) = after step (step s a).2 as := rfl

theorem after_append (as bs : List A) :
    after step s (as ++ bs) = after step (after step s as) bs := foldl_append

theorem after_concat (as : List A) (a : A) : after step s (as ++ [a]) = (step (after step s as) a).2 := by
  rw [after_append]
  rfl

theorem AllSteps.after (Inv : S → Prop) (hstep : ∀ s a, Inv s → P s a → Inv (step s a).2) {as : List A}
    (h : AllSteps step P s as) (hs : Inv s) : Inv (Yuzu.after step s as) := by
  induction as generalizing s with
  | nil => exact hs
  | cons a as ih => exact ih h.2 (hstep s a hs h.1)

theorem AllSteps.mono (Inv : S → Prop) {Q : S → A → Prop} {as : List A} (h : AllSteps step P s as)
    (hstep : ∀ s a, a ∈ as → Inv s → P s a → Q s a ∧ Inv (step s a).2) (hs : Inv s) :
    AllSteps step Q s as := by
  induction as generalizing s with
  | nil => trivial
  | cons a as ih =>
    obtain ⟨hQ, hnext⟩ := hstep s a mem_cons_self hs h.1
    exact ⟨hQ, ih h.2 (fun s b hb => hstep s b (mem_cons_of_mem _ hb)) hnext⟩

theorem after_invariant (Inv : S → Prop) (hstep : ∀ s a, Inv s → Inv (step s a).2) (hs : Inv s) (as : List A) :
    Inv (after step s as) := by
  induction as generalizing s with
  | nil => exact hs
  | cons a as ih => exact ih (hstep s a hs)

theorem exists_leaving_step (Inv : S → Prop) {as : List A} (hs : Inv s) (h : ¬Inv (after step s as)) :
    ∃ bs a cs, as = bs ++ a :: cs ∧ Inv (after step s bs) ∧ ¬Inv (step (after step s bs) a).2 := by
  induction as generalizing s with
  | nil => exact absurd hs h
  | cons a as ih =>
    by_cases hn : Inv (step s a).2
    · obtain ⟨bs, b, cs, rfl, h1, h2⟩ := ih hn h
      exact ⟨a :: bs, b, cs, rfl, h1, h2⟩
    · exact ⟨[], a, as, rfl, hs, hn⟩

/-! ## Machines whose steps can be undefined -/

section Partial

variable {step : S → A → Option O} {next : O → S} {P : S → A → O → Prop}

/-- A run of a machine whose steps can be undefined: every step has an outcome, and the state, the
request and the outcome meet the condition. -/
inductive PartialRun (step : S → A → Option O) (next : O → S) (P : S → A → O → Prop) :
    S → List A → S → Prop where
  | nil (s : S) : PartialRun step next P s [] s
  | cons {s s' : S} {a : A} {as : List A} {o : O} (hstep : step s a = some o) (hP : P s a o)
      (rest : PartialRun step next P (next o) as s') : PartialRun step next P s (a :: as) s'

theorem PartialRun.invariant (Inv : S → Prop)
    (hkeep : ∀ s a o, Inv s → step s a = some o → P s a o → Inv (next o)) {s s' : S} {as : List A}
    (h : PartialRun step next P s as s') (hs : Inv s) : Inv s' := by
  induction h with
  | nil s => exact hs
  | cons hstep hP _ ih => exact ih (hkeep _ _ _ hs hstep hP)

theorem PartialRun.mono {Q : S → A → O → Prop} (h : ∀ s a o, step s a = some o → P s a o → Q s a o)
    {s s' : S} {as : List A} (hrun : PartialRun step next P s as s') :
    PartialRun step next Q s as s' := by
  induction hrun with
  | nil s => exact .nil s
  | cons hstep hP _ ih => exact .cons hstep (h _ _ _ hstep hP) ih

end Partial

/-! ## Machines whose steps are a relation -/

section Relational

variable {S A : Type*} {Step : S → A → S → Prop} {s s' s'' : S} {as bs : List A}

/-- A run of a machine whose steps are labelled and need not be determined. -/
inductive Path (Step : S → A → S → Prop) : S → List A → S → Prop where
  | nil (s : S) : Path Step s [] s
  | cons {s s' s'' : S} {a : A} {as : List A} (hstep : Step s a s') (rest : Path Step s' as s'') :
      Path Step s (a :: as) s''

theorem Path.append (h : Path Step s as s') (h' : Path Step s' bs s'') : Path Step s (as ++ bs) s'' := by
  induction h with
  | nil s => exact h'
  | cons hstep _ ih => exact .cons hstep (ih h')

theorem Path.invariant (Inv : S → Prop) (h : Path Step s as s')
    (hkeep : ∀ t a t', a ∈ as → Inv t → Step t a t' → Inv t') (hs : Inv s) : Inv s' := by
  induction h with
  | nil s => exact hs
  | cons hstep _ ih =>
    exact ih (fun t b t' hb => hkeep t b t' (mem_cons_of_mem _ hb)) (hkeep _ _ _ mem_cons_self hs hstep)

end Relational

end Yuzu
