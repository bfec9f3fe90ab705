/-
  File:      Yuzu/Lib/OrderedTree.lean
  Subject:   Search trees by their elements in order: finding and inserting along a comparison of a
             key with the elements.
-/
import Mathlib.Data.List.Perm.Basic

namespace Yuzu

open List

variable {ι : Type*}

/-- The element that compares equal. -/
def treeFind (compare : ι → Ordering) (tree : List ι) : Option ι :=
  tree.find? fun x => compare x = .eq

/-- The first element that is not below the key. -/
def treeNFind (compare : ι → Ordering) (tree : List ι) : Option ι :=
  tree.find? fun x => compare x ≠ .gt

/-- A new element before the first that it is below, unless one compares equal. -/
def treeInsert (compare : ι → Ordering) (elm : ι) : List ι → List ι
  | [] => [elm]
  | x :: tree => match compare x with
      | .lt => elm :: x :: tree
      | .eq => x :: tree
      | .gt => x :: treeInsert compare elm tree

variable {compare : ι → Ordering} {tree : List ι} {x elm : ι} {R : ι → ι → Prop}

theorem treeFind_some (h : treeFind compare tree = some x) : x ∈ tree ∧ compare x = .eq :=
  ⟨mem_of_find?_eq_some h, by simpa using List.find?_some h⟩

theorem treeFind_none (h : treeFind compare tree = none) : ∀ x ∈ tree, compare x ≠ .eq :=
  fun x hx => by simpa using List.find?_eq_none.mp h x hx

theorem treeNFind_some (h : treeNFind compare tree = some x) : x ∈ tree ∧ compare x ≠ .gt :=
  ⟨mem_of_find?_eq_some h, by simpa using List.find?_some h⟩

theorem treeNFind_none (h : treeNFind compare tree = none) : ∀ x ∈ tree, compare x = .gt :=
  fun x hx => by simpa using List.find?_eq_none.mp h x hx

theorem treeNFind_first {y : ι} (h : treeNFind compare tree = some x) (hR : tree.Pairwise R)
    (hy : y ∈ tree) (hcompare : compare y ≠ .gt) : y = x ∨ R x y := by
  obtain ⟨-, as, bs, rfl, has⟩ := List.find?_eq_some_iff_append.mp h
  rcases mem_append.mp hy with hin | hin
  · exact absurd (has y hin) (by simpa using hcompare)
  · rcases mem_cons.mp hin with rfl | hin
    · exact .inl rfl
    · exact .inr ((pairwise_cons.mp (pairwise_append.mp hR).2.1).1 y hin)

theorem treeInsert_perm (h : ∀ x ∈ tree, compare x ≠ .eq) :
    (treeInsert compare elm tree).Perm (elm :: tree) := by
  induction tree with
  | nil => exact List.Perm.refl _
  | cons x tree ih =>
    rw [treeInsert]
    cases hx : compare x with
    | lt => exact List.Perm.refl _
    | eq => exact absurd hx (h x mem_cons_self)
    | gt => exact ((ih fun y hy => h y (mem_cons_of_mem _ hy)).cons x).trans (.swap _ _ _)

theorem treeInsert_last (h : ∀ x ∈ tree, compare x = .gt) :
    treeInsert compare elm tree = tree ++ [elm] := by
  induction tree with
  | nil => rfl
  | cons x tree ih =>
    rw [treeInsert, h x mem_cons_self, cons_append, ← ih fun y hy => h y (mem_cons_of_mem _ hy)]

theorem treeInsert_between {behind : List ι} (h : ∀ x ∈ tree, compare x = .gt)
    (hbehind : ∀ x ∈ behind, compare x = .lt) :
    treeInsert compare elm (tree ++ behind) = tree ++ elm :: behind := by
  induction tree with
  | nil =>
    cases behind with
    | nil => rfl
    | cons x behind => rw [nil_append, treeInsert, hbehind x mem_cons_self, nil_append]
  | cons x tree ih =>
    rw [cons_append, treeInsert, h x mem_cons_self, cons_append,
      ← ih fun y hy => h y (mem_cons_of_mem _ hy)]

theorem treeFind_between {behind : List ι} (h : ∀ y ∈ tree, compare y ≠ .eq) (hx : compare x = .eq) :
    treeFind compare (tree ++ x :: behind) = some x := by
  have hnone : tree.find? (fun x => compare x = .eq) = none :=
    find?_eq_none.mpr fun y hy => by simpa using h y hy
  rw [treeFind, find?_append, hnone, Option.none_or, find?_cons_of_pos (by simpa using hx)]

/-- **Insertion keeps the order** that the comparison stands for. -/
theorem treeInsert_pairwise (htrans : ∀ x y z, R x y → R y z → R x z) (h : tree.Pairwise R)
    (hne : ∀ x ∈ tree, compare x ≠ .eq) (hlt : ∀ x ∈ tree, compare x = .lt → R elm x)
    (hgt : ∀ x ∈ tree, compare x = .gt → R x elm) : (treeInsert compare elm tree).Pairwise R := by
  induction tree with
  | nil => exact pairwise_singleton R elm
  | cons x tree ih =>
    have hcons := pairwise_cons.mp h
    have hne' := fun y hy => hne y (mem_cons_of_mem _ hy)
    rw [treeInsert]
    cases hx : compare x with
    | lt =>
      have hfirst := hlt x mem_cons_self hx
      refine pairwise_cons.mpr ⟨fun y hy => ?_, h⟩
      rcases mem_cons.mp hy with rfl | hy
      · exact hfirst
      · exact htrans _ _ _ hfirst (hcons.1 y hy)
    | eq => exact absurd hx (hne x mem_cons_self)
    | gt =>
      refine pairwise_cons.mpr ⟨fun y hy => ?_, ih hcons.2 hne' (fun y hy => hlt y (mem_cons_of_mem _ hy))
        fun y hy => hgt y (mem_cons_of_mem _ hy)⟩
      rcases mem_cons.mp ((treeInsert_perm hne').mem_iff.mp hy) with rfl | hy
      · exact hgt x mem_cons_self hx
      · exact hcons.1 y hy

end Yuzu
