/-
  File:      Yuzu/Lib/Ledger.lean
  Subject:   Books of units that are handed out: the marks say which units are held, the owners say
             by whom. The books are exact if the two agree and no unit has two owners.
-/
import Mathlib.Logic.Basic

namespace Yuzu

variable {R O : Type*} {held held' new : R → Prop} {owns owns' : O → R → Prop} {o : O}

/-- **Exact books**: the held units are those that have an owner, and no unit has two. -/
structure Exact (held : R → Prop) (owns : O → R → Prop) : Prop where
  held_iff : ∀ r, held r ↔ ∃ o, owns o r
  unique : ∀ o o' r, owns o r → owns o' r → o = o'

theorem Exact.congr (h : Exact held owns) (hheld : ∀ r, held' r ↔ held r)
    (howns : ∀ o r, owns' o r ↔ owns o r) : Exact held' owns' where
  held_iff r := by
    rw [hheld, h.held_iff]
    exact exists_congr fun o => (howns o r).symm
  unique o o' r ho ho' := h.unique o o' r ((howns o r).mp ho) ((howns o' r).mp ho')

theorem Exact.grant (h : Exact held owns) (hfree : ∀ r, new r → ¬ held r)
    (hheld : ∀ r, held' r ↔ new r ∨ held r)
    (howns : ∀ o' r, owns' o' r ↔ (o' = o ∧ new r) ∨ owns o' r) : Exact held' owns' where
  held_iff r := by
    rw [hheld, h.held_iff]
    constructor
    · rintro (hnew | ⟨o', ho'⟩)
      · exact ⟨o, (howns o r).mpr (.inl ⟨rfl, hnew⟩)⟩
      · exact ⟨o', (howns o' r).mpr (.inr ho')⟩
    · rintro ⟨o', ho'⟩
      rcases (howns o' r).mp ho' with ⟨-, hnew⟩ | hold
      · exact .inl hnew
      · exact .inr ⟨o', hold⟩
  unique o1 o2 r h1 h2 := by
    rcases (howns o1 r).mp h1 with ⟨rfl, hnew⟩ | hold1 <;>
      rcases (howns o2 r).mp h2 with ⟨rfl, hnew'⟩ | hold2
    · rfl
    · exact absurd ((h.held_iff r).mpr ⟨_, hold2⟩) (hfree r hnew)
    · exact absurd ((h.held_iff r).mpr ⟨_, hold1⟩) (hfree r hnew')
    · exact h.unique o1 o2 r hold1 hold2

theorem Exact.release (h : Exact held owns) (hheld : ∀ r, held' r ↔ held r ∧ ¬ owns o r)
    (howns : ∀ o' r, owns' o' r ↔ o' ≠ o ∧ owns o' r) : Exact held' owns' where
  held_iff r := by
    rw [hheld, h.held_iff]
    constructor
    · rintro ⟨⟨o', ho'⟩, hnot⟩
      exact ⟨o', (howns o' r).mpr ⟨fun heq => hnot (heq ▸ ho'), ho'⟩⟩
    · rintro ⟨o', ho'⟩
      obtain ⟨hne, hold⟩ := (howns o' r).mp ho'
      exact ⟨⟨o', hold⟩, fun hown => hne (h.unique o' o r hold hown)⟩
  unique o1 o2 r h1 h2 := h.unique o1 o2 r ((howns o1 r).mp h1).2 ((howns o2 r).mp h2).2

end Yuzu
