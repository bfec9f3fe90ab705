/-
  File:      Yuzu/Lib/Runs.lean
  Subject:   Sets of runs of equal length.

  From a base position, the `o`-th run of length `n` is the interval from `base + o * n` to
  `base + (o + 1) * n`. `runs base n S` is the union of the runs whose numbers lie in `S`: what a
  bitmap with one bit for each run stands for.

  The runs of a predicate are of any length: `MaximalRuns P lo hi rs` says that `rs` lists, from
  left to right, the maximal intervals of `[lo, hi)` on which `P` holds. `joinRuns` makes runs that
  touch one.
-/
import Mathlib.Order.Interval.Finset.Nat
import Mathlib.Algebra.Order.BigOperators.Group.Finset
import Mathlib.Algebra.Order.Ring.Int

namespace Yuzu

open List Finset

def runs (base n : Nat) (S : Finset Nat) : Finset Nat :=
  S.biUnion fun o => Finset.Ico (base + o * n) (base + (o + 1) * n)

section

variable {base n p o a b : Nat} {S : Finset Nat}

theorem mem_runs (hn : 0 < n) : p ∈ runs base n S ↔ base ≤ p ∧ (p - base) / n ∈ S := by
  simp only [runs, mem_biUnion, mem_Ico]
  constructor
  · rintro ⟨o, ho, h1, h2⟩
    have hle : base ≤ p := Nat.le_trans (Nat.le_add_right _ _) h1
    have e : (p - base) / n = o := by
      rw [Nat.div_eq_iff hn, Nat.mul_comm]
      rw [Nat.add_mul] at h2
      rw [Nat.mul_comm o n] at h1 h2
      omega
    exact ⟨hle, e ▸ ho⟩
  · rintro ⟨hle, h⟩
    refine ⟨_, h, ?_⟩
    have h1 := Nat.div_add_mod (p - base) n
    have h2 := Nat.mod_lt (p - base) hn
    rw [Nat.add_mul, Nat.mul_comm _ n]
    omega

theorem runs_empty : runs base n ∅ = ∅ := rfl

theorem runs_insert : runs base n (insert o S) =
    runs base n S ∪ Finset.Ico (base + o * n) (base + (o + 1) * n) := by
  rw [runs, biUnion_insert, union_comm]
  rfl

theorem mem_Ico_runs (hn : 0 < n) (hp : base ≤ p) :
    p ∈ Finset.Ico (base + a * n) (base + b * n) ↔ (p - base) / n ∈ Finset.Ico a b := by
  rw [mem_Ico, mem_Ico, Nat.le_div_iff_mul_le hn, Nat.div_lt_iff_lt_mul hn]
  omega

theorem runs_sdiff_Ico (hn : 0 < n) : runs base n (S \ Finset.Ico a b) =
    runs base n S \ Finset.Ico (base + a * n) (base + b * n) := by
  ext p
  rw [mem_sdiff, mem_runs hn, mem_runs hn, mem_sdiff]
  constructor
  · rintro ⟨hp, hS, hI⟩
    exact ⟨⟨hp, hS⟩, fun h => hI ((mem_Ico_runs hn hp).mp h)⟩
  · rintro ⟨⟨hp, hS⟩, hI⟩
    exact ⟨hp, hS, fun h => hI ((mem_Ico_runs hn hp).mpr h)⟩

theorem runs_erase (hn : 0 < n) : runs base n (S.erase o) =
    runs base n S \ Finset.Ico (base + o * n) (base + (o + 1) * n) := by
  rw [← runs_sdiff_Ico hn]
  congr 1
  ext j
  have e : j ∈ Finset.Ico o (o + 1) ↔ j = o := by
    rw [mem_Ico]
    omega
  rw [mem_erase, mem_sdiff, e, and_comm]

theorem Ico_subset_runs (hn : 0 < n) (h : ∀ j ∈ Finset.Ico a b, j ∈ S) :
    Finset.Ico (base + a * n) (base + b * n) ⊆ runs base n S := by
  intro p hp
  have hle : base ≤ p := by
    rw [mem_Ico] at hp
    exact Nat.le_trans (Nat.le_add_right _ _) hp.1
  exact (mem_runs hn).mpr ⟨hle, h _ ((mem_Ico_runs hn hle).mp hp)⟩

theorem card_runs (hn : 0 < n) : (runs base n S).card = S.card * n := by
  rw [runs, card_biUnion]
  · have h : ∀ o ∈ S, (Finset.Ico (base + o * n) (base + (o + 1) * n)).card = n := fun o _ => by
      rw [Nat.card_Ico, Nat.add_mul]
      omega
    exact sum_const_nat h
  · intro o _ o' _ hne
    refine disjoint_left.mpr fun p hp hp' => hne ?_
    have hle : base ≤ p := Nat.le_trans (Nat.le_add_right _ _) (mem_Ico.mp hp).1
    have h1 := mem_Ico.mp ((mem_Ico_runs hn hle).mp hp)
    have h2 := mem_Ico.mp ((mem_Ico_runs hn hle).mp hp')
    omega

end

/-! ## Maximal runs -/

/-- The positions of the runs of a list, counted from a base. -/
def runPositions (base : Nat) : List (Nat × Nat) → Finset Nat
  | [] => ∅
  | r :: rs => Finset.Ico (base + r.1) (base + r.1 + r.2) ∪ runPositions base rs

theorem mem_runPositions {base p : Nat} {rs : List (Nat × Nat)} :
    p ∈ runPositions base rs ↔ ∃ r ∈ rs, base + r.1 ≤ p ∧ p < base + r.1 + r.2 := by
  induction rs with
  | nil => simp [runPositions]
  | cons r rs ih => simp [runPositions, ih]

/-- The pairs of `rs` are the start and the length of the maximal intervals on which `P` holds. -/
structure MaximalRuns (P : Nat → Prop) (lo hi : Nat) (rs : List (Nat × Nat)) : Prop where
  inside : ∀ r ∈ rs, lo ≤ r.1 ∧ 0 < r.2 ∧ r.1 + r.2 ≤ hi
  separated : rs.Pairwise fun r s => r.1 + r.2 < s.1
  covers : ∀ i, lo ≤ i → i < hi → (P i ↔ ∃ r ∈ rs, r.1 ≤ i ∧ i < r.1 + r.2)

namespace MaximalRuns

variable {P : Nat → Prop} {lo i s c : Nat} {rs : List (Nat × Nat)}

theorem nil : MaximalRuns P lo lo [] :=
  ⟨fun _ h => absurd h not_mem_nil, List.Pairwise.nil, fun _ h1 h2 => by omega⟩

theorem skip (h : MaximalRuns P lo i rs) (hP : ¬P i) : MaximalRuns P lo (i + 1) rs := by
  refine ⟨fun r hr => ?_, h.separated, fun j h1 h2 => ?_⟩
  · obtain ⟨h1, h2, h3⟩ := h.inside r hr
    exact ⟨h1, h2, by omega⟩
  · rcases Nat.lt_or_ge j i with hj | hj
    · exact h.covers j h1 hj
    · obtain rfl : j = i := by omega
      refine iff_of_false hP ?_
      rintro ⟨r, hr, -, h4⟩
      have := (h.inside r hr).2.2
      omega

theorem start (h : MaximalRuns P lo i rs) (hlo : lo ≤ i) (hP : P i)
    (hend : ∀ r ∈ rs, r.1 + r.2 < i) : MaximalRuns P lo (i + 1) (rs ++ [(i, 1)]) := by
  refine ⟨fun r hr => ?_, ?_, fun j h1 h2 => ?_⟩
  · rcases mem_append.mp hr with hr | hr
    · obtain ⟨h1, h2, h3⟩ := h.inside r hr
      exact ⟨h1, h2, by omega⟩
    · rw [List.mem_singleton.mp hr]
      exact ⟨hlo, Nat.one_pos, Nat.le_refl _⟩
  · refine pairwise_append.mpr ⟨h.separated, pairwise_singleton _ _, fun r hr t ht => ?_⟩
    rw [List.mem_singleton.mp ht]
    exact hend r hr
  · rcases Nat.lt_or_ge j i with hj | hj
    · rw [h.covers j h1 hj]
      constructor
      · rintro ⟨r, hr, hr'⟩
        exact ⟨r, mem_append_left _ hr, hr'⟩
      · rintro ⟨r, hr, hr'⟩
        rcases mem_append.mp hr with hr | hr
        · exact ⟨r, hr, hr'⟩
        · rw [List.mem_singleton.mp hr] at hr'
          omega
    · obtain rfl : j = i := by omega
      exact iff_of_true hP ⟨(j, 1), List.mem_append_right _ (List.mem_singleton_self _),
        Nat.le_refl _, Nat.lt_succ_self _⟩

theorem extend (h : MaximalRuns P lo i (rs ++ [(s, c)])) (hi : s + c = i) (hP : P i) :
    MaximalRuns P lo (i + 1) (rs ++ [(s, c + 1)]) := by
  have hlast := h.inside (s, c) (List.mem_append_right _ (List.mem_singleton_self _))
  obtain ⟨hsep, -, hsep'⟩ := pairwise_append.mp h.separated
  refine ⟨fun r hr => ?_, ?_, fun j h1 h2 => ?_⟩
  · rcases mem_append.mp hr with hr | hr
    · obtain ⟨h1, h2, h3⟩ := h.inside r (mem_append_left _ hr)
      exact ⟨h1, h2, by omega⟩
    · rw [List.mem_singleton.mp hr]
      exact ⟨hlast.1, Nat.succ_pos _, by omega⟩
  · refine pairwise_append.mpr ⟨hsep, pairwise_singleton _ _, fun r hr t ht => ?_⟩
    rw [List.mem_singleton.mp ht]
    exact hsep' r hr (s, c) (List.mem_singleton_self _)
  · rcases Nat.lt_or_ge j i with hj | hj
    · rw [h.covers j h1 hj]
      constructor
      · rintro ⟨r, hr, hr'⟩
        rcases mem_append.mp hr with hr | hr
        · exact ⟨r, mem_append_left _ hr, hr'⟩
        · rw [List.mem_singleton.mp hr] at hr'
          exact ⟨(s, c + 1), List.mem_append_right _ (List.mem_singleton_self _), hr'.1, by omega⟩
      · rintro ⟨r, hr, hr'⟩
        rcases mem_append.mp hr with hr | hr
        · exact ⟨r, mem_append_left _ hr, hr'⟩
        · rw [List.mem_singleton.mp hr] at hr'
          exact ⟨(s, c), List.mem_append_right _ (List.mem_singleton_self _), hr'.1, by omega⟩
    · obtain rfl : j = i := by omega
      exact iff_of_true hP ⟨(s, c + 1), List.mem_append_right _ (List.mem_singleton_self _),
        by dsimp only; omega, by dsimp only; omega⟩

theorem of_none {hi : Nat} (h : ∀ j, lo ≤ j → j < hi → ¬P j) : MaximalRuns P lo hi [] :=
  ⟨fun _ h => absurd h not_mem_nil, List.Pairwise.nil,
    fun j h1 h2 => iff_of_false (h j h1 h2) fun ⟨_, hr, _⟩ => absurd hr not_mem_nil⟩

/-- A run in front of the others, with a gap behind it. -/
theorem cons {hi : Nat} (h : MaximalRuns P (s + c) hi rs) (hlo : lo ≤ s) (hc : 0 < c)
    (hhi : s + c ≤ hi) (hskip : ∀ j, lo ≤ j → j < s → ¬P j)
    (hrun : ∀ j, s ≤ j → j < s + c → P j) (hend : s + c < hi → ¬P (s + c)) :
    MaximalRuns P lo hi ((s, c) :: rs) := by
  refine ⟨fun r hr => ?_, pairwise_cons.mpr ⟨fun r hr => ?_, h.separated⟩, fun j h1 h2 => ?_⟩
  · rcases mem_cons.mp hr with rfl | hr
    · exact ⟨hlo, hc, hhi⟩
    · obtain ⟨h1, h2, h3⟩ := h.inside r hr
      exact ⟨by omega, h2, h3⟩
  · obtain ⟨h1, h2, h3⟩ := h.inside r hr
    have hP : P r.1 := (h.covers r.1 h1 (by omega)).mpr ⟨r, hr, Nat.le_refl _, by omega⟩
    rcases Nat.lt_or_ge (s + c) r.1 with hlt | hge
    · exact hlt
    · have heq : r.1 = s + c := by omega
      exact absurd (heq ▸ hP) (hend (by omega))
  · rcases Nat.lt_or_ge j s with hj | hj
    · refine iff_of_false (hskip j h1 hj) ?_
      rintro ⟨r, hr, hr1, -⟩
      rcases mem_cons.mp hr with rfl | hr
      · omega
      · have := (h.inside r hr).1
        omega
    · rcases Nat.lt_or_ge j (s + c) with hj' | hj'
      · exact iff_of_true (hrun j hj hj') ⟨(s, c), mem_cons_self, hj, hj'⟩
      · rw [h.covers j hj' h2]
        constructor
        · rintro ⟨r, hr, hr'⟩
          exact ⟨r, mem_cons_of_mem _ hr, hr'⟩
        · rintro ⟨r, hr, hr'⟩
          rcases mem_cons.mp hr with rfl | hr
          · omega
          · exact ⟨r, hr, hr'⟩

end MaximalRuns

/-! ## Joining runs -/

/-- Runs in order, none over another. -/
def OrderedRuns (rs : List (Nat × Nat)) : Prop := rs.Pairwise fun r s => r.1 + r.2 ≤ s.1

/-- Position `i` lies in one of the runs. -/
def InRuns (rs : List (Nat × Nat)) (i : Nat) : Prop := ∃ r ∈ rs, r.1 ≤ i ∧ i < r.1 + r.2

instance {rs : List (Nat × Nat)} {i : Nat} : Decidable (InRuns rs i) :=
  inferInstanceAs (Decidable (∃ r ∈ rs, r.1 ≤ i ∧ i < r.1 + r.2))

/-- Runs that touch, made one. -/
def joinRuns : Nat × Nat → List (Nat × Nat) → List (Nat × Nat)
  | r, [] => [r]
  | r, s :: rs => if r.1 + r.2 = s.1 then joinRuns (r.1, r.2 + s.2) rs else r :: joinRuns s rs

section Joining

variable {rs rs' : List (Nat × Nat)} {r : Nat × Nat} {i lo hi : Nat}

theorem inRuns_cons : InRuns (r :: rs) i ↔ (r.1 ≤ i ∧ i < r.1 + r.2) ∨ InRuns rs i := by
  simp only [InRuns, exists_mem_cons_iff]

theorem inRuns_nil : ¬InRuns [] i := fun ⟨_, h, _⟩ => absurd h not_mem_nil

theorem inRuns_append : InRuns (rs ++ rs') i ↔ InRuns rs i ∨ InRuns rs' i := by
  simp only [InRuns, mem_append, or_and_right, exists_or]

theorem MaximalRuns.ordered {P : Nat → Prop} (h : MaximalRuns P lo hi rs) : OrderedRuns rs :=
  h.separated.imp fun h => Nat.le_of_lt h

/-- Joining keeps the positions and the order. -/
theorem joinRuns_spec (h : OrderedRuns (r :: rs)) (hpos : ∀ s ∈ r :: rs, 0 < s.2) :
    OrderedRuns (joinRuns r rs) ∧ (∀ i, InRuns (joinRuns r rs) i ↔ InRuns (r :: rs) i) ∧
      ∀ s ∈ joinRuns r rs, r.1 ≤ s.1 ∧ 0 < s.2 := by
  induction rs generalizing r with
  | nil =>
    refine ⟨h, fun i => Iff.rfl, fun s hs => ?_⟩
    rw [List.mem_singleton.mp hs]
    exact ⟨Nat.le_refl _, hpos r mem_cons_self⟩
  | cons s rs ih =>
    obtain ⟨hfirst, hrest⟩ := pairwise_cons.mp h
    obtain ⟨hsecond, hrest'⟩ := pairwise_cons.mp hrest
    have hr : 0 < r.2 := hpos r mem_cons_self
    have hs := hfirst s mem_cons_self
    have hs0 : 0 < s.2 := hpos s (mem_cons_of_mem _ mem_cons_self)
    have hpos' : ∀ t ∈ rs, 0 < t.2 := fun t ht =>
      hpos t (mem_cons_of_mem _ (mem_cons_of_mem _ ht))
    rw [joinRuns]
    split
    · rename_i htouch
      obtain ⟨h1, h2, h3⟩ := ih (r := (r.1, r.2 + s.2))
        (pairwise_cons.mpr ⟨fun t ht => by have := hsecond t ht; dsimp only; omega, hrest'⟩)
        (forall_mem_cons.mpr ⟨Nat.add_pos_left hr _, hpos'⟩)
      refine ⟨h1, fun i => ?_, h3⟩
      rw [h2, inRuns_cons, inRuns_cons, inRuns_cons, ← or_assoc]
      refine or_congr_left ?_
      dsimp only
      omega
    · obtain ⟨h1, h2, h3⟩ := ih (r := s) hrest (forall_mem_cons.mpr ⟨hs0, hpos'⟩)
      refine ⟨pairwise_cons.mpr ⟨fun t ht => ?_, h1⟩, fun i => ?_, fun t ht => ?_⟩
      · have := (h3 t ht).1
        omega
      · rw [inRuns_cons, h2]
        exact inRuns_cons.symm
      · rcases mem_cons.mp ht with rfl | ht
        · exact ⟨Nat.le_refl _, hr⟩
        · obtain ⟨h4, h5⟩ := h3 t ht
          exact ⟨by omega, h5⟩

theorem sum_ordered_runs {δ : Int} (h : OrderedRuns rs) :
    (rs.map fun r => if r.1 ≤ i ∧ i < r.1 + r.2 then δ else 0).sum =
      if InRuns rs i then δ else 0 := by
  induction rs with
  | nil => rw [if_neg inRuns_nil, map_nil, sum_nil]
  | cons r rs ih =>
    obtain ⟨hfirst, hrest⟩ := pairwise_cons.mp h
    rw [List.map_cons, List.sum_cons, ih hrest]
    by_cases hr : r.1 ≤ i ∧ i < r.1 + r.2
    · have hnot : ¬InRuns rs i := fun ⟨s, hs, hs1, _⟩ => by
        have := hfirst s hs
        omega
      rw [if_pos hr, if_neg hnot, if_pos (inRuns_cons.mpr (.inl hr)), Int.add_zero]
    · have hiff : InRuns (r :: rs) i ↔ InRuns rs i := by
        rw [inRuns_cons]
        exact ⟨fun h => h.resolve_left hr, .inr⟩
      rw [if_neg hr, Int.zero_add]
      simp only [hiff]

end Joining

/-! ## Hulls -/

/-- The pair is the hull of a set of positions, in units of `scale`: from the first to behind the
    last, or `empty` if there is none. -/
def HullOf (empty : Nat × Nat) (S : Nat → Prop) (scale : Nat) (hull : Nat × Nat) : Prop :=
  (hull = empty ∧ ∀ p, ¬S p) ∨
    ∃ lo hi, S lo ∧ S hi ∧ (∀ p, S p → lo ≤ p ∧ p ≤ hi) ∧ hull = (lo * scale, (hi + 1) * scale)

section Hulls

variable {empty hull : Nat × Nat} {S T : Nat → Prop} {scale top lo hi : Nat}

theorem HullOf.congr (h : HullOf empty S scale hull) (hST : ∀ p, S p ↔ T p) :
    HullOf empty T scale hull := by
  have heq : S = T := funext fun p => propext (hST p)
  exact heq ▸ h

/-- The hull of two sets, the second not empty. -/
theorem HullOf.union (h : HullOf (top, 0) S scale hull) (hlo : T lo) (hhi : T hi)
    (hT : ∀ p, T p → lo ≤ p ∧ p ≤ hi) (htop : lo * scale ≤ top) :
    HullOf (top, 0) (fun p => S p ∨ T p) scale
      (min hull.1 (lo * scale), max hull.2 ((hi + 1) * scale)) := by
  refine .inr ?_
  rcases h with ⟨rfl, hnone⟩ | ⟨lo', hi', hlo', hhi', hS, rfl⟩
  · refine ⟨lo, hi, .inr hlo, .inr hhi, fun p hp => hT p (hp.resolve_left (hnone p)), ?_⟩
    rw [Nat.min_eq_right htop, Nat.max_eq_right (Nat.zero_le _)]
  · refine ⟨min lo' lo, max hi' hi, ?_, ?_, fun p hp => ?_, ?_⟩
    · rcases Nat.le_total lo' lo with h | h
      · rw [Nat.min_eq_left h]
        exact .inl hlo'
      · rw [Nat.min_eq_right h]
        exact .inr hlo
    · rcases Nat.le_total hi' hi with h | h
      · rw [Nat.max_eq_right h]
        exact .inr hhi
      · rw [Nat.max_eq_left h]
        exact .inl hhi'
    · rcases hp with hp | hp
      · have := hS p hp
        omega
      · have := hT p hp
        omega
    · rw [Nat.mul_min_mul_right, Nat.mul_max_mul_right, Nat.add_max_add_right]

theorem HullOf.select (h : HullOf (top, 0) S scale hull) (hscale : 0 < scale) :
    HullOf (0, 0) S scale (if hull.1 < hull.2 then hull else (0, 0)) := by
  rcases h with ⟨rfl, hnone⟩ | ⟨lo, hi, hlo, hhi, hS, rfl⟩
  · exact .inl ⟨if_neg (Nat.not_lt_zero top), hnone⟩
  · have hlt : lo * scale < (hi + 1) * scale :=
      Nat.mul_lt_mul_of_pos_right (Nat.lt_succ_of_le (hS hi hhi).1) hscale
    exact .inr ⟨lo, hi, hlo, hhi, hS, if_pos hlt⟩

theorem HullOf.scaled (h : HullOf (top, 0) S 1 hull) : HullOf (0, 0) S scale
    (if hull.1 < hull.2 then (hull.1 * scale, hull.2 * scale) else (0, 0)) := by
  rcases h with ⟨rfl, hnone⟩ | ⟨lo, hi, hlo, hhi, hS, rfl⟩
  · exact .inl ⟨if_neg (Nat.not_lt_zero top), hnone⟩
  · have hlt : lo * 1 < (hi + 1) * 1 := by
      have := (hS hi hhi).1
      omega
    refine .inr ⟨lo, hi, hlo, hhi, hS, ?_⟩
    rw [if_pos hlt, Nat.mul_one, Nat.mul_one]

end Hulls

/-! ## Runs along which a function counts up -/

/-- **The longest runs along which a partial function counts up** between two ends: they cover
where it has a value, and of two that touch the second does not go on from the first. -/
structure CountingRuns (D : Nat → Option Nat) (lo hi : Nat) (rs : List (Nat × Nat)) : Prop where
  inside : ∀ r ∈ rs, lo ≤ r.1 ∧ 0 < r.2 ∧ r.1 + r.2 ≤ hi
  ordered : OrderedRuns rs
  covers : ∀ i, lo ≤ i → i < hi → ((D i).isSome = true ↔ InRuns rs i)
  counts : ∀ r ∈ rs, ∃ a, ∀ j < r.2, D (r.1 + j) = some (a + j)
  apart : rs.Pairwise fun r s => r.1 + r.2 = s.1 → ∀ a b, D r.1 = some a → D s.1 = some b → b ≠ a + r.2

namespace CountingRuns

variable {D : Nat → Option Nat} {lo hi i s c a b : Nat} {rs : List (Nat × Nat)}

theorem nil : CountingRuns D lo lo [] :=
  ⟨fun _ h => absurd h not_mem_nil, List.Pairwise.nil, fun _ h1 h2 => by omega,
    fun _ h => absurd h not_mem_nil, List.Pairwise.nil⟩

theorem not_inRuns (h : CountingRuns D lo hi rs) (hi' : hi ≤ i) : ¬InRuns rs i := by
  intro hin
  obtain ⟨r, hr, -, hlt⟩ := hin
  have := (h.inside r hr).2.2
  omega

theorem skip (h : CountingRuns D lo i rs) (hD : D i = none) : CountingRuns D lo (i + 1) rs := by
  refine ⟨fun r hr => ?_, h.ordered, fun j h1 h2 => ?_, h.counts, h.apart⟩
  · obtain ⟨h1, h2, h3⟩ := h.inside r hr
    exact ⟨h1, h2, by omega⟩
  · rcases Nat.lt_or_ge j i with hj | hj
    · exact h.covers j h1 hj
    · obtain rfl : j = i := by omega
      exact iff_of_false (by simp [hD]) (h.not_inRuns (Nat.le_refl j))

theorem start (h : CountingRuns D lo i rs) (hlo : lo ≤ i) (hD : D i = some a)
    (hnew : ∀ r ∈ rs, r.1 + r.2 = i → ∀ b, D r.1 = some b → a ≠ b + r.2) :
    CountingRuns D lo (i + 1) (rs ++ [(i, 1)]) := by
  refine ⟨fun r hr => ?_, ?_, fun j h1 h2 => ?_, fun r hr => ?_, ?_⟩
  · rcases mem_append.mp hr with hr | hr
    · obtain ⟨h1, h2, h3⟩ := h.inside r hr
      exact ⟨h1, h2, by omega⟩
    · rw [List.mem_singleton.mp hr]
      exact ⟨hlo, Nat.one_pos, Nat.le_refl _⟩
  · refine pairwise_append.mpr ⟨h.ordered, pairwise_singleton _ _, fun r hr t ht => ?_⟩
    rw [List.mem_singleton.mp ht]
    exact (h.inside r hr).2.2
  · rw [inRuns_append]
    rcases Nat.lt_or_ge j i with hj | hj
    · rw [h.covers j h1 hj]
      refine (or_iff_left ?_).symm
      intro hin
      obtain ⟨r, hr, hle, -⟩ := hin
      rw [List.mem_singleton.mp hr] at hle
      omega
    · obtain rfl : j = i := by omega
      exact iff_of_true (by simp [hD])
        (.inr ⟨(j, 1), List.mem_singleton_self _, Nat.le_refl _, Nat.lt_succ_self _⟩)
  · rcases mem_append.mp hr with hr | hr
    · exact h.counts r hr
    · rw [List.mem_singleton.mp hr]
      refine ⟨a, fun j hj => ?_⟩
      obtain rfl : j = 0 := Nat.lt_one_iff.mp hj
      exact hD
  · refine pairwise_append.mpr ⟨h.apart, pairwise_singleton _ _, fun r hr t ht => ?_⟩
    rw [List.mem_singleton.mp ht]
    intro hend b a' hb ha'
    obtain rfl : a' = a := Option.some.inj (ha'.symm.trans hD)
    exact hnew r hr hend b hb

theorem extend (h : CountingRuns D lo i (rs ++ [(s, c)])) (hi : s + c = i) (hs : D s = some b)
    (hD : D i = some (b + c)) : CountingRuns D lo (i + 1) (rs ++ [(s, c + 1)]) := by
  have hlast := h.inside (s, c) (List.mem_append_right _ (List.mem_singleton_self _))
  obtain ⟨hord, -, hord'⟩ := List.pairwise_append.mp h.ordered
  obtain ⟨hap, -, hap'⟩ := List.pairwise_append.mp h.apart
  refine ⟨fun r hr => ?_, ?_, fun j h1 h2 => ?_, fun r hr => ?_, ?_⟩
  · rcases List.mem_append.mp hr with hr | hr
    · obtain ⟨h1, h2, h3⟩ := h.inside r (List.mem_append_left _ hr)
      exact ⟨h1, h2, by omega⟩
    · rw [List.mem_singleton.mp hr]
      exact ⟨hlast.1, Nat.succ_pos _, by dsimp only; omega⟩
  · refine List.pairwise_append.mpr ⟨hord, List.pairwise_singleton _ _, fun r hr t ht => ?_⟩
    rw [List.mem_singleton.mp ht]
    exact hord' r hr (s, c) (List.mem_singleton_self _)
  · rw [inRuns_append]
    rcases Nat.lt_or_ge j i with hj | hj
    · rw [h.covers j h1 hj, inRuns_append]
      refine or_congr_right ?_
      simp only [InRuns, List.mem_singleton, exists_eq_left]
      omega
    · obtain rfl : j = i := by omega
      exact iff_of_true (by simp [hD]) (.inr ⟨(s, c + 1), List.mem_singleton_self _,
        by dsimp only; omega, by dsimp only; omega⟩)
  · rcases List.mem_append.mp hr with hr | hr
    · exact h.counts r (List.mem_append_left _ hr)
    · obtain ⟨a, ha⟩ := h.counts (s, c) (List.mem_append_right _ (List.mem_singleton_self _))
      obtain rfl : a = b := Option.some.inj ((ha 0 hlast.2.1).symm.trans hs)
      rw [List.mem_singleton.mp hr]
      refine ⟨a, fun j hj => ?_⟩
      rcases Nat.lt_or_ge j c with hjc | hjc
      · exact ha j hjc
      · obtain rfl : j = c := by
          dsimp only at hj
          omega
        rw [hi]
        exact hD
  · refine List.pairwise_append.mpr ⟨hap, List.pairwise_singleton _ _, fun r hr t ht => ?_⟩
    rw [List.mem_singleton.mp ht]
    exact hap' r hr (s, c) (List.mem_singleton_self _)

theorem first_le (h : CountingRuns D lo hi ((s, c) :: rs)) (hin : InRuns ((s, c) :: rs) i) : s ≤ i := by
  obtain ⟨r, hr, hle, -⟩ := hin
  rcases mem_cons.mp hr with rfl | hr
  · exact hle
  · have := (pairwise_cons.mp h.ordered).1 r hr
    omega

theorem stops (h : CountingRuns D lo hi ((s, c) :: rs)) (hs : D s = some a) (hlt : s + c < hi) :
    D (s + c) ≠ some (a + c) := by
  intro hD
  have hpos := h.inside (s, c) mem_cons_self
  obtain ⟨r, hr, hle, hend⟩ := (h.covers (s + c) (by omega) hlt).mp (by simp [hD])
  rcases mem_cons.mp hr with rfl | hr
  · dsimp only at hend
    omega
  · have hord := (pairwise_cons.mp h.ordered).1 r hr
    have heq : s + c = r.1 := by
      dsimp only at hord
      omega
    exact (pairwise_cons.mp h.apart).1 r hr heq a (a + c) hs (heq ▸ hD) rfl

/-- **One run covers everything exactly when the function counts up all along.** -/
theorem eq_singleton_iff (h : CountingRuns D lo hi rs) (hlt : lo < hi) :
    rs = [(lo, hi - lo)] ↔ ∃ a, ∀ j < hi - lo, D (lo + j) = some (a + j) := by
  constructor
  · rintro rfl
    exact h.counts _ (List.mem_singleton_self _)
  · rintro ⟨a, ha⟩
    have hfirst : InRuns rs lo := (h.covers lo (Nat.le_refl _) hlt).mp
      (by simpa using congrArg Option.isSome (ha 0 (by omega)))
    cases rs with
    | nil => exact absurd hfirst inRuns_nil
    | cons r rs =>
      obtain ⟨s, c⟩ := r
      have hin := h.inside (s, c) mem_cons_self
      obtain rfl : s = lo := Nat.le_antisymm (h.first_le hfirst) hin.1
      have hend : ¬s + c < hi := fun hlt' =>
        h.stops (ha 0 (by omega)) hlt' (ha c (by dsimp only at hin; omega))
      obtain rfl : hi = s + c := by
        dsimp only at hin
        omega
      cases rs with
      | nil => simp
      | cons r rs =>
        have hord := (pairwise_cons.mp h.ordered).1 r mem_cons_self
        have hr := h.inside r (mem_cons_of_mem _ mem_cons_self)
        dsimp only at hord
        omega

end CountingRuns

end Yuzu
