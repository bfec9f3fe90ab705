/-
  File:      Yuzu/Lib/Tiling.lean
  Subject:   Lists of half-open tiles that cover an interval without gap or overlap.

  A tile is any value with a lower and an upper end (`lo`, `hi`). `Tiles lo hi a z bs` says that
  `bs` covers `[a, z)` from left to right. Data carried by tiles is read off by position:

  * `valueAt` -- the datum of the tile that contains a position;
  * `markAt` -- the datum of the tile with one of its ends at a position (or a default);
  * `Starts` -- some tile begins at the position.

  Everything a list of tiles says is said by these readings: a tiling is determined by its
  starts and its data (`Tiles.eq_of_starts`), so operations on the list can be specified, and two
  lists compared, position by position.
-/
import Mathlib.Data.List.Basic

namespace Yuzu

open List

variable {β γ : Type*}

/-- `bs` covers `[a, z)` from left to right, every tile being non-empty. -/
def Tiles (lo hi : β → Nat) : Nat → Nat → List β → Prop
  | a, z, [] => a = z
  | a, z, b :: bs => lo b = a ∧ a < hi b ∧ Tiles lo hi (hi b) z bs

/-- The datum of the tile that contains `p`. -/
def valueAt (lo hi : β → Nat) (d : β → γ) : List β → Nat → Option γ
  | [], _ => none
  | b :: bs, p => if lo b ≤ p ∧ p < hi b then some (d b) else valueAt lo hi d bs p

/-- The datum of the tile whose end `e` lies at `p`, or the default. -/
def markAt [Inhabited γ] (e : β → Nat) (d : β → γ) : List β → Nat → γ
  | [], _ => default
  | b :: bs, p => if e b = p then d b else markAt e d bs p

/-- Some tile begins at `p`. -/
def Starts (lo : β → Nat) (bs : List β) (p : Nat) : Prop := ∃ b ∈ bs, lo b = p

section

variable {lo hi : β → Nat} {a z m p : Nat} {b : β} {bs xs ys : List β} {d : β → γ}

@[simp] theorem tiles_nil : Tiles lo hi a z [] ↔ a = z := Iff.rfl

@[simp] theorem tiles_cons :
    Tiles lo hi a z (b :: bs) ↔ lo b = a ∧ a < hi b ∧ Tiles lo hi (hi b) z bs := Iff.rfl

@[simp] theorem valueAt_nil : valueAt lo hi d [] p = none := rfl

theorem valueAt_cons : valueAt lo hi d (b :: bs) p =
    if lo b ≤ p ∧ p < hi b then some (d b) else valueAt lo hi d bs p := rfl

@[simp] theorem markAt_nil [Inhabited γ] : markAt lo d [] p = default := rfl

theorem markAt_cons [Inhabited γ] : markAt lo d (b :: bs) p =
    if lo b = p then d b else markAt lo d bs p := rfl

@[simp] theorem starts_nil : Starts lo [] p ↔ False := by simp [Starts]

@[simp] theorem starts_cons : Starts lo (b :: bs) p ↔ lo b = p ∨ Starts lo bs p := by
  simp [Starts]

theorem Tiles.le : ∀ {bs : List β} {a : Nat}, Tiles lo hi a z bs → a ≤ z
  | [], _, h => Nat.le_of_eq h
  | _ :: _, _, ⟨_, h1, h2⟩ => Nat.le_trans (Nat.le_of_lt h1) h2.le

theorem Tiles.append : ∀ {xs : List β} {a : Nat},
    Tiles lo hi a m xs → Tiles lo hi m z ys → Tiles lo hi a z (xs ++ ys)
  | [], _, h, hy => by
    have e : _ = m := h
    simpa [e] using hy
  | _ :: _, _, ⟨h0, h1, h2⟩, hy => ⟨h0, h1, h2.append hy⟩

theorem Tiles.of_append : ∀ {xs : List β} {a : Nat}, Tiles lo hi a z (xs ++ ys) →
    ∃ m, Tiles lo hi a m xs ∧ Tiles lo hi m z ys
  | [], a, h => ⟨a, rfl, h⟩
  | _ :: _, _, ⟨h0, h1, h2⟩ =>
    let ⟨m, hx, hy⟩ := h2.of_append
    ⟨m, ⟨h0, h1, hx⟩, hy⟩

theorem Tiles.starts_bounds : ∀ {bs : List β} {a : Nat}, Tiles lo hi a z bs → Starts lo bs p → a ≤ p ∧ p < z
  | [], _, _, hp => (starts_nil.mp hp).elim
  | b :: bs, a, ⟨h0, h1, h2⟩, hp => by
    rcases starts_cons.mp hp with h | h
    · have := h2.le
      omega
    · have := h2.starts_bounds h
      omega

theorem Tiles.valueAt_eq_none : ∀ {bs : List β} {a : Nat}, Tiles lo hi a z bs →
    p < a ∨ z ≤ p → valueAt lo hi d bs p = none
  | [], _, _, _ => rfl
  | b :: bs, a, ⟨h0, h1, h2⟩, hp => by
    have := h2.le
    rw [valueAt_cons, if_neg (by omega), h2.valueAt_eq_none (by omega)]

theorem Tiles.markLo_eq_default [Inhabited γ] : ∀ {bs : List β} {a : Nat}, Tiles lo hi a z bs →
    p < a ∨ z ≤ p → markAt lo d bs p = default
  | [], _, _, _ => rfl
  | b :: bs, a, ⟨h0, h1, h2⟩, hp => by
    have := h2.le
    rw [markAt_cons, if_neg (by omega), h2.markLo_eq_default (by omega)]

theorem Tiles.markHi_eq_default [Inhabited γ] : ∀ {bs : List β} {a : Nat}, Tiles lo hi a z bs →
    p ≤ a ∨ z < p → markAt hi d bs p = default
  | [], _, _, _ => rfl
  | b :: bs, a, ⟨h0, h1, h2⟩, hp => by
    have := h2.le
    rw [markAt_cons, if_neg (by omega), h2.markHi_eq_default (by omega)]

theorem markAt_of_not_starts [Inhabited γ] : ∀ {bs : List β}, ¬ Starts lo bs p → markAt lo d bs p = default
  | [], _ => rfl
  | b :: bs, h => by
    rw [starts_cons, not_or] at h
    rw [markAt_cons, if_neg h.1, markAt_of_not_starts h.2]

/-! ## Readings of a prefix and of what follows it -/

theorem valueAt_append_congr {ys' : List β} (h : valueAt lo hi d ys p = valueAt lo hi d ys' p) :
    valueAt lo hi d (xs ++ ys) p = valueAt lo hi d (xs ++ ys') p := by
  induction xs with
  | nil => exact h
  | cons b xs ih => rw [cons_append, cons_append, valueAt_cons, valueAt_cons, ih]

theorem markAt_append_congr [Inhabited γ] {ys' : List β} (h : markAt lo d ys p = markAt lo d ys' p) :
    markAt lo d (xs ++ ys) p = markAt lo d (xs ++ ys') p := by
  induction xs with
  | nil => exact h
  | cons b xs ih => rw [cons_append, cons_append, markAt_cons, markAt_cons, ih]

@[simp] theorem starts_append : Starts lo (xs ++ ys) p ↔ Starts lo xs p ∨ Starts lo ys p := by
  simp only [Starts, mem_append, or_and_right, exists_or]

theorem Tiles.valueAt_append : ∀ {xs : List β} {a : Nat}, Tiles lo hi a m xs → m ≤ p →
    valueAt lo hi d (xs ++ ys) p = valueAt lo hi d ys p
  | [], _, _, _ => rfl
  | b :: xs, a, ⟨h0, h1, h2⟩, hp => by
    have := h2.le
    rw [cons_append, valueAt_cons, if_neg (by omega), h2.valueAt_append hp]

theorem Tiles.markLo_append [Inhabited γ] : ∀ {xs : List β} {a : Nat}, Tiles lo hi a m xs →
    m ≤ p → markAt lo d (xs ++ ys) p = markAt lo d ys p
  | [], _, _, _ => rfl
  | b :: xs, a, ⟨h0, h1, h2⟩, hp => by
    have := h2.le
    rw [cons_append, markAt_cons, if_neg (by omega), h2.markLo_append hp]

theorem Tiles.markHi_append [Inhabited γ] : ∀ {xs : List β} {a : Nat}, Tiles lo hi a m xs →
    m < p → markAt hi d (xs ++ ys) p = markAt hi d ys p
  | [], _, _, _ => rfl
  | b :: xs, a, ⟨h0, h1, h2⟩, hp => by
    have := h2.le
    rw [cons_append, markAt_cons, if_neg (by omega), h2.markHi_append hp]

/-- Tiles of one part of the interval are replaced by others of it. -/
theorem Tiles.valueAt_replace {e : Nat} {ps qs : List β} (hx : Tiles lo hi a m xs) (hp : Tiles lo hi m e ps)
    (hq : Tiles lo hi m e qs) (hy : Tiles lo hi e z ys) : valueAt lo hi d (xs ++ (ps ++ ys)) p =
      if m ≤ p ∧ p < e then valueAt lo hi d (ps ++ ys) p else valueAt lo hi d (xs ++ (qs ++ ys)) p := by
  by_cases hm : m ≤ p
  · rw [hx.valueAt_append hm, hx.valueAt_append hm]
    split
    · rfl
    · rw [hp.valueAt_append (by omega), hq.valueAt_append (by omega)]
  · rw [if_neg fun h => hm h.1]
    refine valueAt_append_congr ?_
    rw [(hp.append hy).valueAt_eq_none (.inl (by omega)), (hq.append hy).valueAt_eq_none (.inl (by omega))]

/-! ## The tiles themselves, and where none begins -/

theorem Tiles.exists_split : ∀ {bs : List β} {a : Nat}, Tiles lo hi a z bs → a ≤ p → p < z →
    ∃ xs b ys, bs = xs ++ b :: ys ∧ Tiles lo hi a (lo b) xs ∧ (lo b ≤ p ∧ p < hi b) ∧ Tiles lo hi (hi b) z ys
  | [], _, h, hp, hz => absurd (tiles_nil.mp h) (by omega)
  | b :: bs, a, ⟨h0, h1, h2⟩, hp, hz => by
    by_cases hb : p < hi b
    · exact ⟨[], b, bs, rfl, h0.symm, ⟨by omega, hb⟩, h2⟩
    · obtain ⟨xs, c, ys, rfl, hxs, hc, hys⟩ := h2.exists_split (Nat.le_of_not_lt hb) hz
      exact ⟨b :: xs, c, ys, rfl, ⟨h0, h1, hxs⟩, hc, hys⟩

theorem Tiles.lo_lt_hi : ∀ {bs : List β} {a : Nat}, Tiles lo hi a z bs → ∀ b ∈ bs,
    a ≤ lo b ∧ lo b < hi b ∧ hi b ≤ z
  | b :: bs, a, ⟨h0, h1, h2⟩, c, hc => by
    rcases mem_cons.mp hc with rfl | hc
    · have := h2.le
      omega
    · have := h2.lo_lt_hi c hc
      omega

theorem Tiles.valueAt_mem : ∀ {bs : List β} {a : Nat}, Tiles lo hi a z bs → ∀ b ∈ bs,
    valueAt lo hi d bs (lo b) = some (d b)
  | b :: bs, a, ⟨h0, h1, h2⟩, c, hc => by
    rcases mem_cons.mp hc with rfl | hc
    · rw [valueAt_cons, if_pos (by omega)]
    · have := h2.lo_lt_hi c hc
      rw [valueAt_cons, if_neg (by omega), h2.valueAt_mem c hc]

theorem Tiles.markLo_mem [Inhabited γ] : ∀ {bs : List β} {a : Nat}, Tiles lo hi a z bs →
    ∀ b ∈ bs, markAt lo d bs (lo b) = d b
  | b :: bs, a, ⟨h0, h1, h2⟩, c, hc => by
    rcases mem_cons.mp hc with rfl | hc
    · rw [markAt_cons, if_pos rfl]
    · have := h2.lo_lt_hi c hc
      rw [markAt_cons, if_neg (by omega), h2.markLo_mem c hc]

theorem Tiles.markHi_mem [Inhabited γ] : ∀ {bs : List β} {a : Nat}, Tiles lo hi a z bs →
    ∀ b ∈ bs, markAt hi d bs (hi b) = d b
  | b :: bs, a, ⟨h0, h1, h2⟩, c, hc => by
    rcases mem_cons.mp hc with rfl | hc
    · rw [markAt_cons, if_pos rfl]
    · have := h2.lo_lt_hi c hc
      rw [markAt_cons, if_neg (by omega), h2.markHi_mem c hc]

theorem markAt_eq_default_or [Inhabited γ] (lo : β → Nat) (d : β → γ) (p : Nat) : ∀ bs : List β,
    markAt lo d bs p = default ∨ ∃ b ∈ bs, markAt lo d bs p = d b
  | [] => .inl rfl
  | b :: bs => by
    rw [markAt_cons]
    split
    · exact .inr ⟨b, mem_cons_self, rfl⟩
    · rcases markAt_eq_default_or lo d p bs with h | ⟨c, hc, h⟩
      · exact .inl h
      · exact .inr ⟨c, mem_cons_of_mem _ hc, h⟩

theorem Tiles.starts_first (h : Tiles lo hi a z bs) (hz : a < z) : Starts lo bs a := by
  cases bs with
  | nil =>
    have e := tiles_nil.mp h
    omega
  | cons b bs => exact starts_cons.mpr (.inl h.1)

theorem Tiles.valueAt_pred [Inhabited γ] {δ : Type*} {e : β → δ} : ∀ {bs : List β} {a : Nat},
    Tiles lo hi a z bs → a < p → p < z → ¬ Starts lo bs p →
      valueAt lo hi e bs (p - 1) = valueAt lo hi e bs p ∧ markAt hi d bs p = default
  | [], a, h, h1, h2, _ => by
    have e := tiles_nil.mp h
    omega
  | b :: bs, a, ⟨h0, h1, h2⟩, hp, hz, hs => by
    rw [starts_cons, not_or] at hs
    by_cases hb : p < hi b
    · rw [valueAt_cons, if_pos (by omega), valueAt_cons, if_pos (by omega), markAt_cons, if_neg (by omega)]
      exact ⟨rfl, h2.markHi_eq_default (.inl (by omega))⟩
    · by_cases hpe : p = hi b
      · rw [hpe] at hs hz
        exact absurd (h2.starts_first hz) hs.2
      · rw [valueAt_cons, if_neg (by omega), valueAt_cons, if_neg (by omega), markAt_cons,
          if_neg (by omega)]
        exact h2.valueAt_pred (by omega) hz hs.2

/-- **A tiling is determined by its starts and its data**: two tilings of one interval that
    begin their tiles at the same positions, and whose tiles agree wherever they have the same
    extent, are the same list. -/
theorem Tiles.eq_of_starts (hext : ∀ b ∈ xs, ∀ c ∈ ys, lo b = lo c → hi b = hi c → b = c)
    (hx : Tiles lo hi a z xs) (hy : Tiles lo hi a z ys)
    (h : ∀ p, Starts lo xs p ↔ Starts lo ys p) : xs = ys := by
  induction xs generalizing a ys with
  | nil =>
    cases ys with
    | nil => rfl
    | cons c ys => exact absurd ((h (lo c)).mpr (by simp)) (by simp)
  | cons b xs ih =>
    cases ys with
    | nil => exact absurd ((h (lo b)).mp (by simp)) (by simp)
    | cons c ys =>
      obtain ⟨hb0, hb1, hb2⟩ := hx
      obtain ⟨hc0, hc1, hc2⟩ := hy
      -- the first tiles end together: otherwise the shorter one's end is a start of the
      -- other list only
      have hbc : hi b = hi c := by
        refine Nat.le_antisymm ?_ ?_
        · refine Nat.le_of_not_lt fun hlt => ?_
          have hs : Starts lo (c :: ys) (hi c) := by
            cases ys with
            | nil => have := hb2.le; simp at hc2; omega
            | cons c' ys => exact starts_cons.mpr (.inr (starts_cons.mpr (.inl hc2.1)))
          rcases starts_cons.mp ((h _).mpr hs) with e | e
          · omega
          · have := hb2.starts_bounds e
            omega
        · refine Nat.le_of_not_lt fun hlt => ?_
          have hs : Starts lo (b :: xs) (hi b) := by
            cases xs with
            | nil => have := hc2.le; simp at hb2; omega
            | cons b' xs => exact starts_cons.mpr (.inr (starts_cons.mpr (.inl hb2.1)))
          rcases starts_cons.mp ((h _).mp hs) with e | e
          · omega
          · have := hc2.starts_bounds e
            omega
      have e : b = c :=
        hext b mem_cons_self c mem_cons_self (hb0.trans hc0.symm) hbc
      subst e
      have ht : xs = ys := by
        refine ih (fun b hb c hc => hext b (mem_cons_of_mem _ hb) c
          (mem_cons_of_mem _ hc)) hb2 hc2 fun p => ⟨fun hp => ?_, fun hp => ?_⟩
        · have hb := hb2.starts_bounds hp
          rcases starts_cons.mp ((h p).mp (starts_cons.mpr (.inr hp))) with e | e
          · omega
          · exact e
        · have hb := hc2.starts_bounds hp
          rcases starts_cons.mp ((h p).mpr (starts_cons.mpr (.inr hp))) with e | e
          · omega
          · exact e
      rw [ht]

end

end Yuzu
