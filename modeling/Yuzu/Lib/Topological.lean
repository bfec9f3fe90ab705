/-
  File:      Yuzu/Lib/Topological.lean
  Subject:   Lists that order a finite directed graph topologically, and what having one says of
             the graph.
-/
import Mathlib.Logic.Relation
import Mathlib.Data.List.Nodup

namespace Yuzu

open List

variable {α : Type*} {r : α → α → Prop} {l : List α} {a b : α}

/-- No path of the graph comes back to where it started. -/
def Acyclic (r : α → α → Prop) : Prop := ∀ a, ¬Relation.TransGen r a a

/-- Every member of the list is followed by all its successors. -/
def SuccessorsFollow (r : α → α → Prop) : List α → Prop
  | [] => True
  | a :: l => (∀ b, r a b → b ∈ l) ∧ SuccessorsFollow r l

/-- **A topological order** of the nodes of a graph: each node once, and no edge points backwards. -/
structure TopologicalOrder [DecidableEq α] (r : α → α → Prop) (nodes l : List α) : Prop where
  perm : l.Perm nodes
  forward : ∀ a b, r a b → l.idxOf a < l.idxOf b

theorem SuccessorsFollow.mem (h : SuccessorsFollow r l) (ha : a ∈ l) (hr : r a b) : b ∈ l := by
  induction l with
  | nil => cases ha
  | cons c l ih =>
    rcases mem_cons.mp ha with rfl | hal
    · exact mem_cons_of_mem _ (h.1 b hr)
    · exact mem_cons_of_mem _ (ih h.2 hal)

section Order

variable [DecidableEq α] {nodes : List α}

theorem SuccessorsFollow.idxOf_lt (h : SuccessorsFollow r l) (hl : l.Nodup) (ha : a ∈ l)
    (hr : r a b) : l.idxOf a < l.idxOf b := by
  induction l with
  | nil => cases ha
  | cons c l ih =>
    obtain ⟨hc, hl⟩ := nodup_cons.mp hl
    rcases eq_or_ne c a with rfl | hca
    · have hb : b ∈ l := h.1 b hr
      have hcb : c ≠ b := fun e => hc (e ▸ hb)
      rw [idxOf_cons_self, idxOf_cons_ne _ hcb]
      omega
    · have hal : a ∈ l := (mem_cons.mp ha).resolve_left (Ne.symm hca)
      have hcb : c ≠ b := fun e => hc (e ▸ h.2.mem hal hr)
      have hlt := ih h.2 hl hal
      rw [idxOf_cons_ne _ hca, idxOf_cons_ne _ hcb]
      omega

theorem SuccessorsFollow.topologicalOrder (h : SuccessorsFollow r l) (hl : l.Nodup)
    (hp : l.Perm nodes) (hr : ∀ a b, r a b → a ∈ nodes) : TopologicalOrder r nodes l where
  perm := hp
  forward a b hab := h.idxOf_lt hl (hp.mem_iff.mpr (hr a b hab)) hab

/-- **Only acyclic graphs have a topological order.** -/
theorem TopologicalOrder.acyclic (h : TopologicalOrder r nodes l) : Acyclic r := by
  have hlt : ∀ a b, Relation.TransGen r a b → l.idxOf a < l.idxOf b := by
    intro a b hab
    induction hab with
    | single hr => exact h.forward _ _ hr
    | tail _ hr ih => exact Nat.lt_trans ih (h.forward _ _ hr)
  exact fun a haa => Nat.lt_irrefl _ (hlt a a haa)

theorem TopologicalOrder.reverse (h : TopologicalOrder r nodes l) (hl : l.Nodup)
    (hr : ∀ a b, r a b → b ∈ nodes) : TopologicalOrder (fun a b => r b a) nodes l.reverse where
  perm := (reverse_perm l).trans h.perm
  forward b a hab := by
    have hpos : ∀ c ∈ l, l.reverse.idxOf c = l.length - 1 - l.idxOf c := by
      intro c hc
      have hlt := idxOf_lt_length_iff.mpr hc
      have hi : l.length - 1 - l.idxOf c < l.reverse.length := by
        rw [length_reverse]
        omega
      have hget : l.reverse[l.length - 1 - l.idxOf c] = c := by
        rw [getElem_reverse]
        simp only [show l.length - 1 - (l.length - 1 - l.idxOf c) = l.idxOf c by omega, getElem_idxOf]
      conv_lhs => rw [← hget]
      exact (nodup_reverse.mpr hl).idxOf_getElem _ _
    have hlt := h.forward a b hab
    have hb := idxOf_lt_length_iff.mpr (h.perm.mem_iff.mpr (hr a b hab))
    rw [hpos b (h.perm.mem_iff.mpr (hr a b hab)), hpos a (idxOf_lt_length_iff.mp (Nat.lt_trans hlt hb))]
    omega

end Order

end Yuzu
