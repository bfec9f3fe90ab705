/-
  File:      Yuzu/Lib/Inheritance.lean
  Subject:   Levels along a graph in which everybody waits for at most one other. The level of a
             place is the least of its own base and of the levels of those who wait for it; a
             change is passed on from a place to the one it waits for, and this ends, also on
             graphs with cycles.
-/
import Mathlib.Data.Finset.Card

namespace Yuzu

open Function Finset

variable {T P : Type*} [DecidableEq T] [LinearOrder P]

/-! ## 1. Levels -/

/-- **The level of a place**: the least of its base and of what stands at those who wait for it. -/
structure IsLevel (next : T → Option T) (base value : T → P) (t : T) (p : P) : Prop where
  le_base : p ≤ base t
  le_waiting : ∀ w, next w = some t → p ≤ value w
  reached : p = base t ∨ ∃ w, next w = some t ∧ value w = p

/-- Every place but one stands at its level. -/
def LevelExcept (next : T → Option T) (base value : T → P) (s : T) : Prop :=
  ∀ t, t ≠ s → IsLevel next base value t (value t)

/-- Every place stands at its level. -/
def Level (next : T → Option T) (base value : T → P) : Prop :=
  ∀ t, IsLevel next base value t (value t)

variable {next : T → Option T} {base value value' : T → P} {s t u : T} {p q : P}

omit [DecidableEq T] in
omit [DecidableEq T] in
theorem IsLevel.congr (hp : IsLevel next base value t p)
    (h : ∀ w, next w = some t → value' w = value w) : IsLevel next base value' t p where
  le_base := hp.le_base
  le_waiting w hw := by
    rw [h w hw]
    exact hp.le_waiting w hw
  reached := by
    rcases hp.reached with hb | ⟨w, hw, hv⟩
    · exact .inl hb
    · exact .inr ⟨w, hw, (h w hw).trans hv⟩

omit [DecidableEq T] in
theorem IsLevel.congr_graph {next' : T → Option T} {base' : T → P}
    (hp : IsLevel next base value t p) (hnext : ∀ w, next' w = some t ↔ next w = some t)
    (hbase : base' t = base t) : IsLevel next' base' value t p where
  le_base := hbase ▸ hp.le_base
  le_waiting w hw := hp.le_waiting w ((hnext w).mp hw)
  reached := by
    rcases hp.reached with hb | ⟨w, hw, hv⟩
    · exact .inl (hb.trans hbase.symm)
    · exact .inr ⟨w, (hnext w).mpr hw, hv⟩

omit [DecidableEq T] in
omit [DecidableEq T] in
theorem LevelExcept.level (h : LevelExcept next base value s)
    (hs : IsLevel next base value s (value s)) : Level next base value := by
  intro t
  by_cases ht : t = s
  · exact ht ▸ hs
  · exact h t ht

/-! ## 2. A place is set to its level -/

theorem LevelExcept.update_end (h : LevelExcept next base value s)
    (hp : IsLevel next base value s p) (hs : next s = none) :
    Level next base (Function.update value s p) := by
  have hkeep : ∀ t w, next w = some t → Function.update value s p w = value w := by
    intro t w hw
    refine update_of_ne ?_ p value
    rintro rfl
    simp [hs] at hw
  intro t
  by_cases ht : t = s
  · subst ht
    rw [update_self]
    exact hp.congr (hkeep t)
  · rw [update_of_ne ht]
    exact (h t ht).congr (hkeep t)

theorem LevelExcept.update (h : LevelExcept next base value s)
    (hp : IsLevel next base value s p) (hu : next s = some u) :
    LevelExcept next base (Function.update value s p) u := by
  intro t ht
  have hkeep : ∀ w, next w = some t → Function.update value s p w = value w := by
    intro w hw
    refine update_of_ne ?_ p value
    rintro rfl
    exact ht (Option.some.inj (hw.symm.trans hu))
  by_cases hts : t = s
  · subst hts
    rw [update_self]
    exact hp.congr hkeep
  · rw [update_of_ne hts]
    exact (h t hts).congr hkeep

/-- **One step of the passing on**: the place is not at its level, is set to it, and the one it
waits for comes next. -/
def Passes (next : T → Option T) (base : T → P) (x y : (T → P) × T) : Prop :=
  ∃ p, IsLevel next base x.1 x.2 p ∧ p ≠ x.1 x.2 ∧ y.1 = Function.update x.1 x.2 p ∧
    next x.2 = some y.2

/-! ## 3. Passing on a lower value -/

/-- The exception stands at its level, or above it, and then its level is `p`. -/
def Lowering (next : T → Option T) (base value : T → P) (p : P) (s : T) : Prop :=
  LevelExcept next base value s ∧ ∀ q, IsLevel next base value s q → q = value s ∨ (q = p ∧ p < value s)

/-- A place that is set to a lower value passes this value on, or nothing. -/
theorem LevelExcept.lowering (h : LevelExcept next base value s)
    (hp : IsLevel next base value s p) (hlt : p < value s) (hu : next s = some u) :
    Lowering next base (Function.update value s p) p u := by
  refine ⟨h.update hp hu, fun q hq => ?_⟩
  have hqp : q ≤ p := by simpa using hq.le_waiting s hu
  by_cases hus : u = s
  · subst hus
    left
    have hpq : p ≤ q := by
      rcases hq.reached with hb | ⟨w, hw, hv⟩
      · exact hb ▸ hp.le_base
      · by_cases hws : w = u
        · subst hws
          rw [update_self] at hv
          exact hv.le
        · rw [update_of_ne hws] at hv
          exact hv ▸ hp.le_waiting w hw
    rw [update_self]
    exact le_antisymm hqp hpq
  · rw [update_of_ne hus]
    have hl := h u hus
    have hqv : q ≤ value u := by
      rcases hl.reached with hb | ⟨w, hw, hv⟩
      · exact hb ▸ hq.le_base
      · by_cases hws : w = s
        · subst hws
          exact hqp.trans (hv ▸ hlt.le)
        · simpa [update_of_ne hws, hv] using hq.le_waiting w hw
    rcases hq.reached with hb | ⟨w, hw, hv⟩
    · exact .inl (le_antisymm hqv (hb ▸ hl.le_base))
    · by_cases hws : w = s
      · subst hws
        rw [update_self] at hv
        subst hv
        exact hqv.eq_or_lt.imp_right fun hlt => ⟨rfl, hlt⟩
      · rw [update_of_ne hws] at hv
        exact .inl (le_antisymm hqv (hv ▸ hl.le_waiting w hw))

/-- **Passing on a lower value ends**: each place takes it at most once. -/
theorem Lowering.acc {F : Finset T} (hF : ∀ t u, next t = some u → u ∈ F) (n : Nat) :
    ∀ {value : T → P} {s : T}, Lowering next base value p s → s ∈ F →
      (F.filter fun t => p < value t).card < n →
      Acc (fun y x => Passes next base x y) (value, s) := by
  induction n with
  | zero => exact fun _ _ hn => absurd hn (Nat.not_lt_zero _)
  | succ n ih =>
    intro value s h hs hn
    refine Acc.intro _ ?_
    rintro ⟨value', u⟩ ⟨q, hq, hne, hvalue, hu⟩
    obtain ⟨hqp, hlt⟩ := (h.2 q hq).resolve_left hne
    subst hqp
    simp only at hvalue hu
    subst hvalue
    refine ih (h.1.lowering hq hlt hu) (hF s u hu) ?_
    have hss : (F.filter fun t => q < Function.update value s q t) ⊂ F.filter fun t => q < value t := by
      refine Finset.ssubset_iff_subset_ne.mpr ⟨fun t ht => ?_, fun heq => ?_⟩
      · obtain ⟨htF, htq⟩ := Finset.mem_filter.mp ht
        by_cases hts : t = s
        · subst hts
          simp at htq
        · rw [update_of_ne hts] at htq
          exact mem_filter.mpr ⟨htF, htq⟩
      · have hmem : s ∈ F.filter fun t => q < value t := mem_filter.mpr ⟨hs, hlt⟩
        rw [← heq] at hmem
        simp at hmem
    exact (card_lt_card hss).trans_le (Nat.le_of_lt_succ hn)

/-! ## 4. Passing on a higher value -/

/-- The exception stands at its level, or at `p` and its level is above. -/
def Raising (next : T → Option T) (base value : T → P) (p : P) (s : T) : Prop :=
  LevelExcept next base value s ∧ ∀ q, IsLevel next base value s q → q = value s ∨ (value s = p ∧ p < q)

/-- A place that leaves a value for a higher one frees the next place from that value, or from
nothing. -/
theorem LevelExcept.raising (h : LevelExcept next base value s)
    (hp : IsLevel next base value s p) (hlt : value s < p) (hu : next s = some u) :
    Raising next base (Function.update value s p) (value s) u := by
  have hus : u ≠ s := by
    -- who waits for itself is not below its level
    rintro rfl
    exact absurd (hp.le_waiting u hu) (not_le.mpr hlt)
  refine ⟨h.update hp hu, fun q hq => ?_⟩
  rw [update_of_ne hus]
  have hl := h u hus
  have hvq : value u ≤ q := by
    rcases hq.reached with hb | ⟨w, hw, hv⟩
    · exact hb ▸ hl.le_base
    · by_cases hws : w = s
      · subst hws
        rw [update_self] at hv
        exact hv ▸ (hl.le_waiting w hw).trans hlt.le
      · rw [update_of_ne hws] at hv
        exact hv ▸ hl.le_waiting w hw
  rcases hl.reached with hb | ⟨w, hw, hv⟩
  · exact .inl (le_antisymm (hb ▸ hq.le_base) hvq)
  · by_cases hws : w = s
    · subst hws
      rcases hvq.eq_or_lt with heq | hlt'
      · exact .inl heq.symm
      · exact .inr ⟨hv.symm, hv ▸ hlt'⟩
    · left
      refine le_antisymm ?_ hvq
      simpa [update_of_ne hws, hv] using hq.le_waiting w hw

/-- **Passing on a higher value ends**: each place leaves the old value at most once. -/
theorem Raising.acc {F : Finset T} (hF : ∀ t u, next t = some u → u ∈ F) (n : Nat) :
    ∀ {value : T → P} {s : T}, Raising next base value p s → s ∈ F →
      (F.filter fun t => value t = p).card < n →
      Acc (fun y x => Passes next base x y) (value, s) := by
  induction n with
  | zero => exact fun _ _ hn => absurd hn (Nat.not_lt_zero _)
  | succ n ih =>
    intro value s h hs hn
    refine Acc.intro _ ?_
    rintro ⟨value', u⟩ ⟨q, hq, hne, hvalue, hu⟩
    obtain ⟨hval, hlt⟩ := (h.2 q hq).resolve_left hne
    simp only at hvalue hu hq hne
    subst hvalue hval
    refine ih (h.1.raising hq hlt hu) (hF s u hu) ?_
    have hss : (F.filter fun t => Function.update value s q t = value s) ⊂
        F.filter fun t => value t = value s := by
      refine Finset.ssubset_iff_subset_ne.mpr ⟨fun t ht => ?_, fun heq => ?_⟩
      · obtain ⟨htF, htq⟩ := Finset.mem_filter.mp ht
        by_cases hts : t = s
        · exact mem_filter.mpr ⟨htF, hts ▸ rfl⟩
        · rw [update_of_ne hts] at htq
          exact mem_filter.mpr ⟨htF, htq⟩
      · have hmem : s ∈ F.filter fun t => value t = value s := mem_filter.mpr ⟨hs, rfl⟩
        rw [← heq] at hmem
        simp [hne] at hmem
    exact (card_lt_card hss).trans_le (Nat.le_of_lt_succ hn)

/-! ## 5. The passing on -/

/-- **Passing on ends** from every place, whatever cycles the graph has, when all others stand at
their level and finitely many are waited for. -/
theorem LevelExcept.acc {F : Finset T} (hF : ∀ t u, next t = some u → u ∈ F)
    (h : LevelExcept next base value s) :
    Acc (fun y x => Passes next base x y) (value, s) := by
  refine Acc.intro _ ?_
  rintro ⟨value', u⟩ ⟨q, hq, hne, hvalue, hu⟩
  simp only at hvalue hu hq hne
  subst hvalue
  rcases lt_or_gt_of_ne hne with hlt | hlt
  · exact Lowering.acc hF _ (h.lowering hq hlt hu) (hF s u hu) (Nat.lt_succ_self _)
  · exact Raising.acc hF _ (h.raising hq hlt hu) (hF s u hu) (Nat.lt_succ_self _)

end Yuzu
