/-
  File:      Yuzu/Lib/Replace.lean
  Subject:   Texts in which a pattern is replaced from left to right, and texts of pairs with an escape.

  `replaceAll` goes on behind what it has put in. A single mark is replaced letter by letter
  (`replaceAll_singleton`). Patterns that are the escape and a letter are the entries of a table, and
  passes for one entry after another are one pass for the table of all (`replaceAll_entries`).
-/
import Mathlib.Data.List.Induction

namespace Yuzu

open List Function

variable {α : Type*} [DecidableEq α]

/-! ## 1. Replacement -/

/-- The replacement in a text whose first letters, so many, belong to a pattern that was replaced. -/
def replaceFrom (src dest : List α) : Nat → List α → List α
  | _, [] => []
  | skip + 1, _ :: rest => replaceFrom src dest skip rest
  | 0, c :: rest =>
    if src.isPrefixOf (c :: rest) then dest ++ replaceFrom src dest (src.length - 1) rest
    else c :: replaceFrom src dest 0 rest

/-- **Every occurrence of a pattern is replaced**, from left to right. -/
def replaceAll (src dest : List α) (text : List α) : List α := replaceFrom src dest 0 text

variable {a b e : α} {dest text : List α}

theorem replaceAll_singleton (a : α) (dest text : List α) :
    replaceAll [a] dest text = text.flatMap fun c => if c = a then dest else [c] := by
  induction text with
  | nil => rfl
  | cons c rest ih =>
    rw [replaceAll, replaceFrom, flatMap_cons]
    by_cases h : c = a
    · rw [if_pos h, if_pos (by simp [h])]
      exact congrArg (dest ++ ·) ih
    · rw [if_neg h, if_neg (by simpa using Ne.symm h)]
      exact congrArg (c :: ·) ih

/-! ## 2. Tables -/

/-- One pass for a table: an escape and a letter of the table become what the table says. -/
def substitute (e : α) (table : α → Option α) : List α → List α
  | [] => []
  | [c] => [c]
  | c :: x :: rest =>
    match (if c = e then table x else none) with
    | some y => y :: substitute e table rest
    | none => c :: substitute e table (x :: rest)

variable {table : α → Option α} {x y : α} {rest : List α}

theorem substitute_some (h : table x = some y) :
    substitute e table (e :: x :: rest) = y :: substitute e table rest := by
  rw [substitute, if_pos rfl, h]

theorem substitute_none (h : table x = none) :
    substitute e table (e :: x :: rest) = e :: substitute e table (x :: rest) := by
  rw [substitute, if_pos rfl, h]

theorem substitute_cons (h : x ≠ e) :
    substitute e table (x :: rest) = x :: substitute e table rest := by
  cases rest with
  | nil => rfl
  | cons c rest => rw [substitute, if_neg h]

theorem substitute_empty (text : List α) : substitute e (fun _ => none) text = text := by
  induction text with
  | nil => rfl
  | cons c rest ih =>
    by_cases h : c = e
    · subst h
      cases rest with
      | nil => rfl
      | cons x rest => rw [substitute_none rfl, ih]
    · rw [substitute_cons h, ih]

theorem replaceAll_pair_cons (h : x ≠ e) :
    replaceAll [e, a] dest (x :: rest) = x :: replaceAll [e, a] dest rest := by
  rw [replaceAll, replaceFrom, if_neg (by simp [Ne.symm h])]
  rfl

theorem replaceAll_pair_match :
    replaceAll [e, a] dest (e :: a :: rest) = dest ++ replaceAll [e, a] dest rest := by
  rw [replaceAll, replaceFrom, if_pos (by simp)]
  rfl

theorem replaceAll_pair_other (h : x ≠ a) :
    replaceAll [e, a] dest (e :: x :: rest) = e :: replaceAll [e, a] dest (x :: rest) := by
  rw [replaceAll, replaceFrom, if_neg (by simp [Ne.symm h])]
  rfl

theorem replaceAll_pair_end : replaceAll [e, a] dest [e] = [e] := by
  rw [replaceAll, replaceFrom, if_neg (by simp)]
  rfl

theorem substitute_head (e : α) (table : α → Option α) (x : α) (rest : List α) :
    (∃ tail, substitute e table (x :: rest) = x :: tail) ∨
      ∃ z y tail, x = e ∧ rest.head? = some z ∧ table z = some y ∧
        substitute e table (x :: rest) = y :: tail := by
  by_cases h : x = e
  · subst h
    cases rest with
    | nil => exact .inl ⟨[], rfl⟩
    | cons z rest =>
      cases hz : table z with
      | none => exact .inl ⟨_, substitute_none hz⟩
      | some y => exact .inr ⟨z, y, _, rfl, rfl, hz, substitute_some hz⟩
  · exact .inl ⟨_, substitute_cons h⟩

/-- **Another pass is another entry of the table**, where the pattern is not the escape twice and nothing
that the table puts in is the escape or the letter of the pattern. -/
theorem substitute_pair (hae : a ≠ e) (hea : table e = none) (ha : table a = none)
    (hout : ∀ x y, table x = some y → y ≠ e ∧ y ≠ a) (text : List α) :
    replaceAll [e, a] [b] (substitute e table text) =
      substitute e (Function.update table a (some b)) text := by
  have hother : ∀ {x}, x ≠ a → Function.update table a (some b) x = table x := fun h =>
    update_of_ne h _ _
  induction text using substitute.induct e table with
  | case1 => rfl
  | case2 c =>
    by_cases h : c = e
    · rw [h]
      exact replaceAll_pair_end
    · rw [substitute_cons h, substitute_cons h, replaceAll_pair_cons h]
      rfl
  | case3 c x rest y htable ih =>
    by_cases hc : c = e
    · subst hc
      rw [if_pos rfl] at htable
      have hx : x ≠ a := fun h => by
        rw [h, ha] at htable
        cases htable
      rw [substitute_some htable, substitute_some (by rwa [hother hx]),
        replaceAll_pair_cons (hout x y htable).1, ih]
    · rw [if_neg hc] at htable
      cases htable
  | case4 c x rest htable ih =>
    by_cases hc : c = e
    · subst hc
      rw [if_pos rfl] at htable
      by_cases hx : x = a
      · -- the pattern
        subst hx
        rw [substitute_none htable, substitute_cons hae, replaceAll_pair_match,
          substitute_some (update_self x (some b) table)]
        rw [substitute_cons hae, replaceAll_pair_cons hae, substitute_cons hae] at ih
        rw [cons.inj ih |>.2]
        rfl
      · -- behind the escape stands the letter, or what the table puts in for another pair
        rw [substitute_none htable, substitute_none (by rwa [hother hx]), ← ih]
        obtain ⟨tail, htail⟩ | ⟨z, y, tail, rfl, -, hz, htail⟩ := substitute_head c table x rest
        · rw [htail]
          exact replaceAll_pair_other hx
        · rw [htail]
          exact replaceAll_pair_other (hout z y hz).2
    · rw [substitute_cons hc, substitute_cons hc, replaceAll_pair_cons hc, ih]

/-- The table of a list of entries. -/
def tableOf (entries : List (α × α)) (c : α) : Option α := entries.lookup c

theorem mem_of_tableOf {entries : List (α × α)} (h : tableOf entries x = some y) : (x, y) ∈ entries := by
  obtain ⟨before, behind, rfl, -⟩ := lookup_eq_some_iff.mp h
  exact mem_append_right _ mem_cons_self

theorem tableOf_eq_none {entries : List (α × α)} (h : ∀ p ∈ entries, p.1 ≠ x) : tableOf entries x = none :=
  lookup_eq_none_iff.mpr fun p hp => by simpa using Ne.symm (h p hp)

/-- **Passes for entries one after another are one pass for their table**, where no entry puts in the escape
or the letter of a later one. By induction on the entries, the last one first. -/
theorem replaceAll_entries {entries : List (α × α)} (hkeys : ∀ p ∈ entries, p.1 ≠ e)
    (hpairs : entries.Pairwise fun p q => p.1 ≠ q.1 ∧ p.2 ≠ e ∧ p.2 ≠ q.1) (text : List α) :
    entries.foldl (fun text p => replaceAll [e, p.1] [p.2] text) text =
      substitute e (tableOf entries) text := by
  induction entries using List.reverseRecOn with
  | nil => exact (substitute_empty text).symm
  | append_singleton init p ih =>
    obtain ⟨hinit, -, hlast⟩ := pairwise_append.mp hpairs
    have hlast' := fun q hq => hlast q hq p mem_cons_self
    have hinit' := fun q hq => hkeys q (mem_append_left _ hq)
    have hnone : tableOf init p.1 = none := tableOf_eq_none fun q hq => (hlast' q hq).1
    have htable : tableOf (init ++ [p]) = Function.update (tableOf init) p.1 (some p.2) := by
      funext c
      rw [tableOf, lookup_append]
      by_cases hc : c = p.1
      · rw [hc, update_self, ← tableOf, hnone]
        exact lookup_cons_self
      · have hone : tableOf [p] c = none := tableOf_eq_none fun q hq => by
          rw [mem_singleton.mp hq]
          exact Ne.symm hc
        rw [update_of_ne hc, ← tableOf, ← tableOf, hone, Option.or_none]
    rw [foldl_append, foldl_cons, foldl_nil, ih hinit' hinit, htable]
    exact substitute_pair (hkeys p (mem_append_right _ mem_cons_self)) (tableOf_eq_none hinit')
      hnone (fun x y h => (hlast' (x, y) (mem_of_tableOf h)).2) text

end Yuzu
