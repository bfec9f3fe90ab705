/-
  File:      Yuzu/Lib/SplitMap.lean
  Subject:   Partial maps from positions to values, kept as segments in increasing order.

  A segment is a half-open interval with the value its positions have. `OrderedFrom a s` says that
  the segments of `s` are non-empty, disjoint and in increasing order from position `a` on; there may
  be gaps between them. `valueAt` (`Yuzu.Lib.Tiling`) reads the value of a position.

  * `window lower upper s` -- the segments that meet an interval, found as a range of the list;
  * `plus lower upper v s` -- `v` added on an interval: segments are split at the ends of the
    interval, and its gaps become segments of value `v`.
-/
import Yuzu.Lib.Tiling
import Mathlib.Algebra.Order.Ring.Int

namespace Yuzu

open List

structure Segment (V : Type*) where
  lower : Nat
  upper : Nat
  value : V
  deriving DecidableEq, Repr

namespace Segment

variable {V : Type*}

/-- The segment and the interval have a position in common. -/
def Meets (lower upper : Nat) (g : Segment V) : Prop := lower < g.upper ∧ g.lower < upper

instance (lower upper : Nat) (g : Segment V) : Decidable (g.Meets lower upper) :=
  inferInstanceAs (Decidable (_ ∧ _))

end Segment

namespace SplitMap

variable {V : Type*} {s xs ys : List (Segment V)} {g h : Segment V} {a b lower upper p l u : Nat} {v w : V}

/-! ## 1. Ordered segments -/

def OrderedFrom : Nat → List (Segment V) → Prop
  | _, [] => True
  | a, g :: s => a ≤ g.lower ∧ g.lower < g.upper ∧ OrderedFrom g.upper s

/-- The value at a position, if it lies in a segment. -/
abbrev valueOf (s : List (Segment V)) (p : Nat) : Option V :=
  valueAt Segment.lower Segment.upper Segment.value s p

theorem OrderedFrom.weaken (hs : OrderedFrom b s) (hab : a ≤ b) : OrderedFrom a s := by
  cases s with
  | nil => trivial
  | cons g s => exact ⟨Nat.le_trans hab hs.1, hs.2.1, hs.2.2⟩

theorem OrderedFrom.bounds (hs : OrderedFrom a s) (hg : g ∈ s) : a ≤ g.lower ∧ g.lower < g.upper := by
  induction s generalizing a with
  | nil => exact absurd hg not_mem_nil
  | cons c s ih =>
    obtain ⟨hc, hlt, hs⟩ := hs
    rcases mem_cons.mp hg with rfl | hg
    · exact ⟨hc, hlt⟩
    · have hbounds := ih hs hg
      omega

theorem OrderedFrom.sublist (hs : OrderedFrom a s) (hsub : xs.Sublist s) : OrderedFrom a xs := by
  induction hsub generalizing a with
  | slnil => trivial
  | cons g _ ih =>
    obtain ⟨hg, hlt, hs⟩ := hs
    exact ih (hs.weaken (by omega))
  | cons_cons g _ ih => exact ⟨hs.1, hs.2.1, ih hs.2.2⟩

theorem OrderedFrom.pairwise (hs : OrderedFrom a s) : s.Pairwise fun g h => g.upper ≤ h.lower := by
  induction s generalizing a with
  | nil => exact .nil
  | cons g s ih =>
    exact pairwise_cons.mpr ⟨fun h hh => (hs.2.2.bounds hh).1, ih hs.2.2⟩

theorem OrderedFrom.valueOf_eq_none (hs : OrderedFrom a s) (hp : p < a) : valueOf s p = none := by
  induction s generalizing a with
  | nil => rfl
  | cons g s ih =>
    obtain ⟨hg, hlt, hs⟩ := hs
    rw [valueOf, valueAt_cons, if_neg (by omega)]
    exact ih hs (by omega)

theorem OrderedFrom.valueOf_eq_some (hs : OrderedFrom a s) :
    valueOf s p = some v ↔ ∃ g ∈ s, (g.lower ≤ p ∧ p < g.upper) ∧ g.value = v := by
  induction s generalizing a with
  | nil => simp [valueOf]
  | cons g s ih =>
    obtain ⟨hg, hlt, hs⟩ := hs
    rw [valueOf, valueAt_cons]
    split
    · rename_i hin
      constructor
      · intro heq
        exact ⟨g, mem_cons_self, hin, Option.some.inj heq⟩
      · intro hex
        obtain ⟨h, hh, hph, hv⟩ := hex
        rcases mem_cons.mp hh with rfl | hh
        · rw [hv]
        · have hbounds := hs.bounds hh
          omega
    · rename_i hout
      rw [ih hs]
      constructor
      · intro hex
        obtain ⟨h, hh, hrest⟩ := hex
        exact ⟨h, mem_cons_of_mem _ hh, hrest⟩
      · intro hex
        obtain ⟨h, hh, hph, hv⟩ := hex
        rcases mem_cons.mp hh with rfl | hh
        · exact absurd hph hout
        · exact ⟨h, hh, hph, hv⟩

/-! ## 2. The segments that meet an interval -/

/-- The segments from the first that does not end before the interval up to the first that begins
behind it. -/
def window (lower upper : Nat) (s : List (Segment V)) : List (Segment V) :=
  (s.dropWhile fun g => g.upper ≤ lower).takeWhile fun g => g.lower < upper

theorem OrderedFrom.window_eq (hs : OrderedFrom a s) :
    window lower upper s = s.filter fun g => g.Meets lower upper := by
  have htake : ∀ {a : Nat} {s : List (Segment V)}, OrderedFrom a s → lower ≤ a →
      s.takeWhile (fun g => g.lower < upper) = s.filter fun g => g.Meets lower upper := by
    intro a s hs ha
    induction s generalizing a with
    | nil => rfl
    | cons g s ih =>
      obtain ⟨hg, hlt, hs⟩ := hs
      by_cases hin : g.lower < upper
      · have hmeets : g.Meets lower upper := ⟨by omega, hin⟩
        rw [takeWhile_cons_of_pos (by simpa using hin),
          filter_cons_of_pos (by simpa using hmeets), ih hs (by omega)]
      · -- the later segments begin behind the interval as well
        rw [takeWhile_cons_of_neg (by simpa using hin)]
        refine (filter_eq_nil_iff.mpr fun h hh hmeets => ?_).symm
        obtain ⟨-, hlow⟩ : h.Meets lower upper := by simpa using hmeets
        rcases mem_cons.mp hh with rfl | hh
        · exact hin hlow
        · have hbounds := hs.bounds hh
          omega
  induction s generalizing a with
  | nil => rfl
  | cons g s ih =>
    obtain ⟨hg, hlt, hs⟩ := hs
    by_cases hbefore : g.upper ≤ lower
    · have hnot : ¬g.Meets lower upper := fun hmeets => by
        have hlow := hmeets.1
        omega
      rw [window, dropWhile_cons_of_pos (by simpa using hbefore), filter_cons_of_neg (by simpa using hnot)]
      exact ih hs
    · rw [window, dropWhile_cons_of_neg (by simpa using hbefore)]
      by_cases hin : g.lower < upper
      · have hmeets : g.Meets lower upper := ⟨by omega, hin⟩
        rw [takeWhile_cons_of_pos (by simpa using hin),
          filter_cons_of_pos (by simpa using hmeets), htake hs (by omega)]
      · rw [takeWhile_cons_of_neg (by simpa using hin)]
        refine (filter_eq_nil_iff.mpr fun h hh hmeets => ?_).symm
        obtain ⟨-, hlow⟩ : h.Meets lower upper := by simpa using hmeets
        rcases mem_cons.mp hh with rfl | hh
        · exact hin hlow
        · have hbounds := hs.bounds hh
          omega

/-! ## 3. Adding on an interval -/

/-- The segment between two positions in front of others, if it is not empty. -/
def piece (l u : Nat) (v : V) (s : List (Segment V)) : List (Segment V) :=
  if l < u then ⟨l, u, v⟩ :: s else s

theorem mem_piece : g ∈ piece l u v s ↔ l < u ∧ g = ⟨l, u, v⟩ ∨ g ∈ s := by
  rw [piece]
  split
  · rename_i h
    simp [h]
  · rename_i h
    simp [h]

theorem valueOf_piece : valueOf (piece l u v s) p = if l ≤ p ∧ p < u then some v else valueOf s p := by
  rw [piece]
  split
  · rfl
  · rw [if_neg (by omega)]

theorem OrderedFrom.piece (hs : OrderedFrom a s) (h : l < u → a ≤ l ∧ OrderedFrom u s) :
    OrderedFrom a (piece l u v s) := by
  rw [SplitMap.piece]
  split
  · rename_i hlt
    exact ⟨(h hlt).1, hlt, (h hlt).2⟩
  · exact hs

/-- `v` is added from `cur` to `upper`. -/
def plus [Add V] (cur upper : Nat) (v : V) : List (Segment V) → List (Segment V)
  | [] => piece cur upper v []
  | g :: s =>
    piece cur (min upper g.lower) v <| piece g.lower (min g.upper cur) g.value <|
        piece (max g.lower cur) (min g.upper upper) (g.value + v) <|
          piece (max g.lower upper) g.upper g.value <| plus (max cur g.upper) upper v s

theorem plus_ordered [Add V] {cur : Nat} (hs : OrderedFrom a s) (ha : a ≤ cur)
    (hcur : cur ≤ max upper a) : OrderedFrom a (plus cur upper v s) := by
  induction s generalizing a cur with
  | nil => exact OrderedFrom.piece trivial fun _ => ⟨ha, trivial⟩
  | cons g s ih =>
    obtain ⟨hg, hlt, hs⟩ := hs
    have hrest := ih hs (Nat.le_max_right cur g.upper) (by omega)
    rw [plus]
    -- from the last piece to the first, what may stand in front of it
    generalize plus (max cur g.upper) upper v s = rest at hrest ⊢
    have hafter : ∀ x, x ≤ g.upper → x ≤ max g.lower upper →
        OrderedFrom x (piece (max g.lower upper) g.upper g.value rest) :=
      fun x hx hxl => (hrest.weaken hx).piece fun _ => ⟨hxl, hrest⟩
    generalize piece (max g.lower upper) g.upper g.value rest = rest at hafter ⊢
    have hinside : ∀ x, x ≤ g.upper → x ≤ max g.lower upper → x ≤ max g.lower cur →
        OrderedFrom x (piece (max g.lower cur) (min g.upper upper) (g.value + v) rest) :=
      fun x hx hxl hxc => (hafter x hx hxl).piece fun _ =>
        ⟨hxc, hafter _ (by omega) (by omega)⟩
    generalize piece (max g.lower cur) (min g.upper upper) (g.value + v) rest = rest at hinside ⊢
    have hbefore : ∀ x, x ≤ g.lower → OrderedFrom x (piece g.lower (min g.upper cur) g.value rest) :=
      fun x hx => (hinside x (by omega) (by omega) (by omega)).piece fun _ =>
        ⟨hx, hinside _ (by omega) (by omega) (by omega)⟩
    exact (hbefore a hg).piece fun _ => ⟨ha, hbefore _ (by omega)⟩

/-- **Values are added position by position**, with 0 in the gaps. -/
theorem valueOf_plus [AddZeroClass V] {cur : Nat} (hs : OrderedFrom a s) : valueOf (plus cur upper v s) p =
      if cur ≤ p ∧ p < upper then some ((valueOf s p).getD 0 + v) else valueOf s p := by
  induction s generalizing a cur with
  | nil =>
    rw [plus, valueOf_piece]
    simp [valueOf]
  | cons g s ih =>
    obtain ⟨hg, hlt, hs⟩ := hs
    have hcons : valueOf (g :: s) p =
        if g.lower ≤ p ∧ p < g.upper then some g.value else valueOf s p := rfl
    simp only [plus, valueOf_piece, ih hs, hcons]
    by_cases hin : g.lower ≤ p ∧ p < g.upper
    · rw [if_pos hin, if_neg (by omega)]
      by_cases hbefore : p < cur
      · rw [if_pos (by omega), if_neg (by omega)]
      · rw [if_neg (by omega)]
        by_cases hinside : p < upper
        · rw [if_pos (by omega), if_pos (by omega), Option.getD_some]
        · rw [if_neg (by omega), if_pos (by omega), if_neg (by omega)]
    · rw [if_neg hin, if_neg (by omega : ¬(g.lower ≤ p ∧ p < min g.upper cur)),
        if_neg (by omega : ¬(max g.lower cur ≤ p ∧ p < min g.upper upper)),
        if_neg (by omega : ¬(max g.lower upper ≤ p ∧ p < g.upper))]
      by_cases hlow : p < g.lower
      · rw [hs.valueOf_eq_none (by omega), if_neg (by omega : ¬(max cur g.upper ≤ p ∧ p < upper)),
          Option.getD_none, zero_add]
        by_cases hgap : cur ≤ p ∧ p < upper
        · rw [if_pos (by omega), if_pos hgap]
        · rw [if_neg (by omega), if_neg hgap]
      · rw [if_neg (by omega)]
        by_cases hgap : cur ≤ p ∧ p < upper
        · rw [if_pos (by omega), if_pos hgap]
        · rw [if_neg (by omega), if_neg hgap]

/-- No segment crosses an end of the interval afterwards. -/
theorem plus_splits [Add V] {cur : Nat} (hs : OrderedFrom a s) (ha : a ≤ cur)
    (hcur : cur ≤ max upper a) (hh : h ∈ plus cur upper v s) :
    (cur ≤ h.lower ∧ h.upper ≤ upper) ∨ h.upper ≤ cur ∨ upper ≤ h.lower := by
  induction s generalizing a cur with
  | nil =>
    rcases mem_piece.mp hh with ⟨-, rfl⟩ | hh
    · exact .inl ⟨le_rfl, le_rfl⟩
    · exact absurd hh not_mem_nil
  | cons g s ih =>
    obtain ⟨hg, hlt, hs⟩ := hs
    have hrest : OrderedFrom g.upper (plus (max cur g.upper) upper v s) :=
      plus_ordered hs (Nat.le_max_right cur g.upper) (by omega)
    simp only [plus, mem_piece] at hh
    rcases hh with ⟨hne, rfl⟩ | ⟨hne, rfl⟩ | ⟨hne, rfl⟩ | ⟨hne, rfl⟩ | hh
    · dsimp only
      omega
    · dsimp only
      omega
    · dsimp only
      omega
    · dsimp only
      omega
    · have hsplit := ih hs (Nat.le_max_right cur g.upper) (by omega) hh
      have hbounds := hrest.bounds hh
      omega

end SplitMap

end Yuzu
