/-
  File:      Yuzu/Lib/Leases.lean
  Subject:   An address space that is let in pieces. An allocator marks the room of a lease as held,
             and a table maps the first part of the room to what the lease is for. While no two
             leases share a unit, each keeps its entries until it is given back.
-/
import Mathlib.Data.Option.Basic

namespace Yuzu

variable {V O : Type*}

/-! ## 1. The space -/

/-- The units an allocator has handed out, and the entries of the units. -/
structure Space (V : Type*) where
  held : Nat → Bool
  entry : Nat → Option V

namespace Space

def allocate (s : Space V) (start n : Nat) : Space V :=
  { s with held := fun r => if start ≤ r ∧ r < start + n then true else s.held r }

def free (s : Space V) (start n : Nat) : Space V :=
  { s with held := fun r => if start ≤ r ∧ r < start + n then false else s.held r }

def map (s : Space V) (start n : Nat) (content : Nat → V) : Space V :=
  { s with entry := fun r =>
      if start ≤ r ∧ r < start + n then some (content (r - start)) else s.entry r }

def unmap (s : Space V) (start n : Nat) : Space V :=
  { s with entry := fun r => if start ≤ r ∧ r < start + n then none else s.entry r }

end Space

/-! ## 2. Leases -/

/-- A piece of the space: `room` units are held, the first `size` of them have entries. -/
structure Lease (V : Type*) where
  start : Nat
  size : Nat
  room : Nat
  content : Nat → V

def Lease.Has (l : Lease V) (r : Nat) : Prop := l.start ≤ r ∧ r < l.start + l.room

/-- **The space serves the leases**: no unit is in two of them, every unit of one is held, and its
entries say what the lease is for. -/
structure Serves (s : Space V) (leases : O → Option (Lease V)) : Prop where
  apart : ∀ o o' l l' r, leases o = some l → leases o' = some l' → l.Has r → l'.Has r → o = o'
  held : ∀ o l r, leases o = some l → l.Has r → s.held r = true
  fits : ∀ o l, leases o = some l → l.size ≤ l.room
  served : ∀ o l i, leases o = some l → i < l.size → s.entry (l.start + i) = some (l.content i)

namespace Serves

variable {s s' : Space V} {leases leases' : O → Option (Lease V)} {o : O} {l : Lease V}

theorem has_of_lt (h : Serves s leases) (hl : leases o = some l) {i : Nat} (hi : i < l.size) :
    l.Has (l.start + i) := by
  have hfit := h.fits o l hl
  exact ⟨by omega, by omega⟩

theorem not_has (h : Serves s leases) (hl : leases o = some l) {o' : O} {l' : Lease V}
    (hl' : leases o' = some l') (hne : o' ≠ o) {r : Nat} (hr : l'.Has r) : ¬ l.Has r :=
  fun hr' => hne (h.apart o' o l' l r hl' hl hr hr')

theorem congr (h : Serves s leases) (hleases : ∀ o, leases' o = leases o)
    (hheld : ∀ o l r, leases o = some l → l.Has r → s'.held r = s.held r)
    (hentry : ∀ o l i, leases o = some l → i < l.size →
      s'.entry (l.start + i) = s.entry (l.start + i)) : Serves s' leases' where
  apart o o' l l' r hl hl' := by
    rw [hleases] at hl hl'
    exact h.apart o o' l l' r hl hl'
  held o l r hl hr := by
    rw [hleases] at hl
    rw [hheld o l r hl hr]
    exact h.held o l r hl hr
  fits o l hl := h.fits o l (hleases o ▸ hl)
  served o l i hl hi := by
    rw [hleases] at hl
    rw [hentry o l i hl hi]
    exact h.served o l i hl hi

/-- **A new lease**: its room was free, and its entries are written. -/
theorem grant (h : Serves s leases) (hfree : ∀ r, l.Has r → s.held r = false)
    (hfits : l.size ≤ l.room) (hnew : leases' o = some l)
    (hold : ∀ o', o' ≠ o → leases' o' = leases o') :
    Serves ((s.allocate l.start l.room).map l.start l.size l.content) leases' := by
  have hout : ∀ o' l' r, leases o' = some l' → l'.Has r → ¬ l.Has r := by
    intro o' l' r hl' hr hr'
    have hheld := h.held o' l' r hl' hr
    rw [hfree r hr'] at hheld
    cases hheld
  constructor
  · intro o1 o2 l1 l2 r h1 h2 hr1 hr2
    by_cases e1 : o1 = o <;> by_cases e2 : o2 = o
    · rw [e1, e2]
    · rw [e1, hnew] at h1
      rw [hold o2 e2] at h2
      cases h1
      exact absurd hr1 (hout o2 l2 r h2 hr2)
    · rw [e2, hnew] at h2
      rw [hold o1 e1] at h1
      cases h2
      exact absurd hr2 (hout o1 l1 r h1 hr1)
    · rw [hold o1 e1] at h1
      rw [hold o2 e2] at h2
      exact h.apart o1 o2 l1 l2 r h1 h2 hr1 hr2
  · intro o' l' r hl' hr
    simp only [Space.map, Space.allocate]
    by_cases e : o' = o
    · rw [e, hnew] at hl'
      cases hl'
      exact if_pos hr
    · rw [hold o' e] at hl'
      split
      · rfl
      · exact h.held o' l' r hl' hr
  · intro o' l' hl'
    by_cases e : o' = o
    · rw [e, hnew] at hl'
      cases hl'
      exact hfits
    · rw [hold o' e] at hl'
      exact h.fits o' l' hl'
  · intro o' l' i hl' hi
    simp only [Space.map, Space.allocate]
    by_cases e : o' = o
    · rw [e, hnew] at hl'
      cases hl'
      rw [if_pos ⟨by omega, by omega⟩, Nat.add_sub_cancel_left]
    · rw [hold o' e] at hl'
      rw [if_neg]
      · exact h.served o' l' i hl' hi
      · intro hr
        exact hout o' l' _ hl' (h.has_of_lt hl' hi) ⟨hr.1, by omega⟩

/-- **A lease ends**: its entries are removed and its room is free again. -/
theorem giveBack (h : Serves s leases) (hl : leases o = some l) (hgone : leases' o = none)
    (hold : ∀ o', o' ≠ o → leases' o' = leases o') :
    Serves ((s.unmap l.start l.size).free l.start l.room) leases' := by
  have hother : ∀ o' l', leases' o' = some l' → o' ≠ o ∧ leases o' = some l' := by
    intro o' l' hl'
    by_cases e : o' = o
    · rw [e, hgone] at hl'
      cases hl'
    · exact ⟨e, hold o' e ▸ hl'⟩
  constructor
  · intro o1 o2 l1 l2 r h1 h2
    exact h.apart o1 o2 l1 l2 r (hother o1 l1 h1).2 (hother o2 l2 h2).2
  · intro o' l' r hl' hr
    obtain ⟨hne, hl'⟩ := hother o' l' hl'
    have hnot : ¬ (l.start ≤ r ∧ r < l.start + l.room) := h.not_has hl hl' hne hr
    simp only [Space.unmap, Space.free]
    rw [if_neg hnot]
    exact h.held o' l' r hl' hr
  · intro o' l' hl'
    exact h.fits o' l' (hother o' l' hl').2
  · intro o' l' i hl' hi
    obtain ⟨hne, hl'⟩ := hother o' l' hl'
    have hnot := h.not_has hl hl' hne (h.has_of_lt hl' hi)
    have hfit := h.fits o l hl
    simp only [Space.unmap, Space.free]
    rw [if_neg (fun hr => hnot ⟨hr.1, by omega⟩)]
    exact h.served o' l' i hl' hi

theorem rewrite (h : Serves s leases) (hl : leases o = some l) (hsize : l.size = 0)
    (hleases : ∀ o', leases' o' = leases o') (hheld : s'.held = s.held)
    (hentry : ∀ r, ¬ l.Has r → s'.entry r = s.entry r) : Serves s' leases' := by
  refine h.congr hleases (fun _ _ _ _ _ => by rw [hheld]) fun o' l' i hl' hi => hentry _ ?_
  have hne : o' ≠ o := by
    rintro rfl
    rw [hl] at hl'
    cases hl'
    omega
  exact h.not_has hl hl' hne (h.has_of_lt hl' hi)

end Serves

end Yuzu
