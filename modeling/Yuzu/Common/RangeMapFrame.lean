/-
  File:      Yuzu/Common/RangeMapFrame.lean
  Subject:   WHAT `RangeMap::Map` LEAVES ALONE, on all pairs of 64-bit keys.

  The clamp makes an empty range of two keys with the top bit set, and turns a range around when
  only its end has it. For an empty range the second `emplace` finds the key of the first taken, and
  a range that is turned around is erased from its wrong end.
-/
import Yuzu.Common.RangeMap
import Yuzu.Lib.Trace

namespace Yuzu.Common.RangeMap

set_option linter.unusedSectionVars false

variable {V : Type} [DecidableEq V]

/-! ## 1. `Map` on 64-bit keys -/

/-- The key as `Map` uses it: cast to the signed type, and not below 0. -/
def clampKey (k : BitVec 64) : Int := if k.toInt < 0 then 0 else k.toInt

/-- The loop of `InternalMap` erases from `lower_bound(address)` until it meets
`upper_bound(address_end)`. When that lies before its start the loop runs off the container. -/
def EraseReturns (m : RangeMap V) (address addressEnd : Int) : Prop :=
  (m.beforeLower address).length ≤ (m.beforeUpper addressEnd).length

instance (m : RangeMap V) (a b : Int) : Decidable (m.EraseReturns a b) :=
  inferInstanceAs (Decidable (_ ≤ _))

/-- `Map` on unsigned keys; none where the behaviour is undefined. -/
def mapKeys (m : RangeMap V) (address addressEnd : BitVec 64) (value : V) : Option (RangeMap V) :=
  if m.EraseReturns (clampKey address) (clampKey addressEnd) then
    some (m.map address.toInt addressEnd.toInt value)
  else none

/-- **The frame law** of a call: it returns, and the value at every key outside the range stays. -/
def Framed (m : RangeMap V) (a b : BitVec 64) (v : V) : Prop :=
  ∃ m', m.mapKeys a b v = some m' ∧ ∀ x : Int, 0 ≤ x → x < 2 ^ 63 →
    ¬((a.toNat : Int) ≤ x ∧ x < b.toNat) → m'.getValueAt x = m.getValueAt x

/-- **The condition of a call**: after the clamp the range is not empty; or it is empty, and the
value stands before the key or at it already, or the call is for all keys; or it is turned around,
and no breakpoint lies strictly between its ends. -/
def Meets (m : RangeMap V) (a b : BitVec 64) (v : V) : Prop :=
  clampKey a < clampKey b ∨
  (clampKey a = clampKey b ∧ (v = m.getFirstValueWithin (clampKey a) ∨
    v = m.getValueAt (clampKey a) ∨ (a = 0#64 ∧ 2 ^ 63 ≤ b.toNat))) ∨
  (clampKey b < clampKey a ∧ ∀ e ∈ m.container, ¬(clampKey b < e.1 ∧ e.1 < clampKey a))

instance (m : RangeMap V) (a b : BitVec 64) (v : V) : Decidable (m.Meets a b v) := by
  unfold Meets
  infer_instance

/-- The call leaves the null value at the end of the container, where `GetFirstValueWithin` and
`GetLastValueWithin` take it for granted. -/
def KeepsEnd (m : RangeMap V) (a b : BitVec 64) (v : V) : Prop :=
  clampKey a < clampKey b ∨ v = m.getFirstValueWithin (clampKey a) ∨ v = m.getValueAt (clampKey a) ∨
    ∃ e ∈ m.container, if clampKey a = clampKey b then clampKey a < e.1 else clampKey a ≤ e.1

instance (m : RangeMap V) (a b : BitVec 64) (v : V) : Decidable (m.KeepsEnd a b v) := by
  unfold KeepsEnd
  infer_instance

/-! ## 2. Single entries -/

variable {m : RangeMap V} {a b k x : Int} {v w : V}

theorem le_of_lowerBound_eq {k' : Int} {B : List (Int × V)} (hB : m.lowerBound k = (k', w) :: B) :
    k ≤ k' := by
  unfold lowerBound at hB
  have hhead := @List.head_dropWhile_not _ (fun e : Int × V => decide (e.1 < k)) m.container
    (by rw [hB]; exact List.cons_ne_nil _ _)
  simp only [hB, List.head_cons, decide_eq_false_iff_not, not_lt] at hhead
  exact hhead

/-- Below its key an emplaced entry is not seen. -/
theorem valueAt_emplace_of_lt (hx : x < k) : (m.emplace k w).valueAt x = m.valueAt x := by
  have hsplit := lower_split (m := m) (a := k)
  have hold : m.valueAt x =
      (entryAt Prod.fst (keyMin, m.nullValue) (m.beforeLower k ++ m.lowerBound k) x).2 := by
    rw [hsplit]
    rfl
  rw [emplace]
  cases hB : m.lowerBound k with
  | nil =>
    rw [hold, hB, valueAt]
    dsimp only
    rw [entryAt_append_left, List.append_nil]
    intro e he
    rw [List.mem_singleton.mp he]
    exact hx
  | cons f B =>
    obtain ⟨k', v'⟩ := f
    dsimp only
    split
    · rfl
    · have hk : k ≤ k' := le_of_lowerBound_eq hB
      rw [hold, hB, valueAt]
      dsimp only
      have hstop : ∀ d : Int × V, entryAt Prod.fst d ((k, w) :: (k', v') :: B) x = d :=
        fun d => if_neg (not_le.mpr hx)
      have hstop' : ∀ d : Int × V, entryAt Prod.fst d ((k', v') :: B) x = d :=
        fun d => if_neg (not_le.mpr (lt_of_lt_of_le hx hk))
      generalize (keyMin, m.nullValue) = d
      induction m.beforeLower k generalizing d with
      | nil => rw [List.nil_append, List.nil_append, hstop, hstop']
      | cons e A ih =>
        rw [List.cons_append, List.cons_append, entryAt, entryAt]
        split
        · exact ih e
        · rfl

theorem Begun.mem_lowerBound_iff (h : Begun m) {e : Int × V} (he : e ∈ m.container) :
    e ∈ m.lowerBound a ↔ a ≤ e.1 := by
  refine ⟨h.le_of_mem_lowerBound, fun hle => ?_⟩
  rw [← lower_split (m := m) (a := a)] at he
  rcases List.mem_append.mp he with he | he
  · exact absurd (lt_of_mem_beforeLower he) (not_lt.mpr hle)
  · exact he

theorem Begun.mem_upperBound_iff (h : Begun m) {e : Int × V} (he : e ∈ m.container) :
    e ∈ m.upperBound b ↔ b < e.1 := by
  refine ⟨h.lt_of_mem_upperBound, fun hlt => ?_⟩
  rw [← upper_split (m := m) (b := b)] at he
  rcases List.mem_append.mp he with he | he
  · exact absurd (le_of_mem_beforeUpper he) (not_le.mpr hlt)
  · exact he

/-- An emplaced value that stands there already changes nothing. -/
theorem valueAt_emplace_of_eq : (m.emplace k (m.valueAt k)).valueAt x = m.valueAt x := by
  rcases lt_or_ge x k with hx | hx
  · exact valueAt_emplace_of_lt hx
  · have hlow : ∀ e ∈ m.beforeLower k, e.1 ≤ x := fun e he =>
      le_trans (le_of_lt (lt_of_mem_beforeLower he)) hx
    have hold : ∀ y, k ≤ y → m.valueAt y = (entryAt Prod.fst
        ((m.beforeLower k).getLastD (keyMin, m.nullValue)) (m.lowerBound k) y).2 := by
      intro y hy
      rw [valueAt, ← lower_split (m := m) (a := k), entryAt_append_right]
      exact fun e he => le_trans (le_of_lt (lt_of_mem_beforeLower he)) hy
    rw [emplace]
    cases hB : m.lowerBound k with
    | nil =>
      rw [hold x hx, hB, valueAt]
      dsimp only
      rw [entryAt_append_right hlow]
      simp only [entryAt, if_pos hx]
      rw [hold k le_rfl, hB, entryAt]
    | cons f B =>
      obtain ⟨k', v'⟩ := f
      dsimp only
      split
      · rfl
      · rename_i hne
        have hlt : k < k' := lt_of_le_of_ne (le_of_lowerBound_eq hB) (Ne.symm hne)
        rw [hold x hx, hB, valueAt]
        dsimp only
        rw [entryAt_append_right hlow, entryAt, if_pos hx]
        refine @entryAt_congr _ _ _ _ Prod.fst _ _ _ _ Prod.snd ?_
        dsimp only
        rw [hold k le_rfl, hB, entryAt, if_neg (not_le.mpr hlt)]

theorem nullValue_emplace : (m.emplace k w).nullValue = m.nullValue := by
  rw [emplace]
  split
  · split <;> rfl
  · rfl

theorem sorted_emplace (hs : m.container.Pairwise (·.1 < ·.1)) :
    (m.emplace k w).container.Pairwise (·.1 < ·.1) := by
  have hlow := hs
  rw [← lower_split (m := m) (a := k)] at hlow
  obtain ⟨hA, hB, hAB⟩ := List.pairwise_append.mp hlow
  rw [emplace]
  cases hC : m.lowerBound k with
  | nil =>
    refine List.pairwise_append.mpr ⟨hA, List.pairwise_singleton _ _, fun e he f hf => ?_⟩
    rw [List.mem_singleton.mp hf]
    exact lt_of_mem_beforeLower he
  | cons f B =>
    obtain ⟨k', v'⟩ := f
    dsimp only
    split
    · exact hs
    · rename_i hne
      have hlt : k < k' := lt_of_le_of_ne (le_of_lowerBound_eq hC) (Ne.symm hne)
      rw [hC] at hB hAB
      refine List.pairwise_append.mpr ⟨hA, List.pairwise_cons.mpr ⟨fun e he => ?_, hB⟩,
        fun e he f hf => ?_⟩
      · rcases List.mem_cons.mp he with rfl | he
        · exact hlt
        · exact lt_trans hlt ((List.pairwise_cons.mp hB).1 e he)
      · rcases List.mem_cons.mp hf with rfl | hf
        · exact lt_of_mem_beforeLower he
        · exact hAB e he f hf

theorem mem_emplace {e : Int × V} (he : e ∈ m.container) : e ∈ (m.emplace k w).container := by
  have hsplit := he
  rw [← lower_split (m := m) (a := k)] at hsplit
  rw [emplace]
  cases hB : m.lowerBound k with
  | nil =>
    rw [hB, List.append_nil] at hsplit
    exact List.mem_append_left _ hsplit
  | cons f B =>
    obtain ⟨k', v'⟩ := f
    dsimp only
    split
    · exact he
    · rw [hB] at hsplit
      rcases List.mem_append.mp hsplit with hA | hB'
      · exact List.mem_append_left _ hA
      · exact List.mem_append_right _ (List.mem_cons_of_mem _ hB')

theorem Begun.emplace (h : Begun m) (hk : 0 ≤ k) : Begun (m.emplace k w) := by
  obtain ⟨A, hA⟩ := h.beforeLower_cons hk
  obtain ⟨l, hl, hpos⟩ := h.first
  have hsplit := lower_split (m := m) (a := k)
  refine ⟨?_, sorted_emplace h.sorted⟩
  rw [hA, hl, List.cons_append] at hsplit
  have hold : A ++ m.lowerBound k = l := (List.cons.inj hsplit).2
  rw [nullValue_emplace, RangeMap.emplace, hA]
  cases hB : m.lowerBound k with
  | nil =>
    rw [hB, List.append_nil] at hold
    refine ⟨A ++ [(k, w)], rfl, fun d hd => ?_⟩
    rcases List.mem_append.mp hd with hd | hd
    · exact hpos d (hold ▸ hd)
    · rw [List.mem_singleton.mp hd]
      exact hk
  | cons f B =>
    obtain ⟨k', v'⟩ := f
    rw [hB] at hold
    dsimp only
    split
    · exact ⟨l, hl, hpos⟩
    · refine ⟨A ++ (k, w) :: (k', v') :: B, rfl, fun d hd => ?_⟩
      rcases List.mem_append.mp hd with hd | hd
      · exact hpos d (hold ▸ List.mem_append_left _ hd)
      · rcases List.mem_cons.mp hd with rfl | hd
        · exact hk
        · exact hpos d (hold ▸ List.mem_append_right _ hd)

theorem Kept.emplace (h : Kept m) (hk : 0 ≤ k) (hend : ∃ e ∈ m.container, k ≤ e.1) :
    Kept (m.emplace k w) := by
  obtain ⟨e, he, hle⟩ := hend
  refine ⟨h.toBegun.emplace hk, ?_⟩
  have hsplit := lower_split (m := m) (a := k)
  have hlast := h.last
  rw [nullValue_emplace, RangeMap.emplace]
  cases hB : m.lowerBound k with
  | nil =>
    have hin := (h.mem_lowerBound_iff he).mpr hle
    rw [hB] at hin
    exact absurd hin List.not_mem_nil
  | cons f B =>
    obtain ⟨k', v'⟩ := f
    dsimp only
    split
    · exact hlast
    · rw [← hsplit, hB, List.getLastD_eq_getLast?, List.getLast?_append_cons] at hlast
      rw [List.getLastD_eq_getLast?, List.getLast?_append_cons, List.getLast?_cons_cons]
      exact hlast

/-! ## 3. Empty and turned ranges -/

/-- **`InternalMap` of an empty range**: the second `emplace` never adds to the first. -/
theorem Kept.internalMap_empty (h : Kept m) (ha : 0 ≤ a) :
    m.internalMap a a v = ⟨m.nullValue, push (keyMin, m.nullValue) (m.beforeLower a) a
      (if m.getFirstValueWithin a ≠ v then v else m.valueAt a) ++ m.upperBound a⟩ := by
  have hlow : ∀ e ∈ m.beforeLower a, e.1 < a := fun e he => lt_of_mem_beforeLower he
  have hup : ∀ e ∈ m.upperBound a, a < e.1 := fun e he => h.lt_of_mem_upperBound he
  rw [RangeMap.internalMap, h.getLastValueWithin_eq ha]
  by_cases hv : m.getFirstValueWithin a = v
  · rw [if_neg (not_not.mpr hv), if_neg (not_not.mpr hv), push, ← h.getFirstValueWithin_eq ha, hv,
      emplace_gap hlow hup]
    by_cases hq : m.valueAt a = v
    · rw [if_neg (not_not.mpr hq), if_neg (not_not.mpr hq.symm)]
    · rw [if_pos hq, if_pos (Ne.symm hq), List.append_assoc]
      rfl
  · rw [if_pos hv, if_pos hv, push, ← h.getFirstValueWithin_eq ha, if_pos hv,
      emplace_gap hlow hup, List.append_assoc, List.singleton_append]
    split
    · -- the key is there already
      rw [RangeMap.emplace]
      have hdrop : (⟨m.nullValue, m.beforeLower a ++ (a, v) :: m.upperBound a⟩ : RangeMap V).lowerBound
          a = (a, v) :: m.upperBound a := by
        rw [lowerBound, List.dropWhile_append_of_pos fun e he => decide_eq_true (hlow e he)]
        exact List.dropWhile_cons_of_neg (by simp)
      rw [hdrop]
      exact if_pos rfl
    · rfl

/-- The values after an empty range was mapped. -/
theorem Kept.valueAt_empty (h : Kept m) :
    ((⟨m.nullValue, push (keyMin, m.nullValue) (m.beforeLower a) a w ++ m.upperBound a⟩ :
      RangeMap V).valueAt a = w) ∧
    ∀ x, x < a ∨ w = m.valueAt a →
      (⟨m.nullValue, push (keyMin, m.nullValue) (m.beforeLower a) a w ++ m.upperBound a⟩ :
        RangeMap V).valueAt x = m.valueAt x := by
  have hlow : ∀ e ∈ m.beforeLower a, e.1 < a := fun e he => lt_of_mem_beforeLower he
  have hup : ∀ e ∈ m.upperBound a, a < e.1 := fun e he => h.lt_of_mem_upperBound he
  have hpush : ∀ e ∈ push (keyMin, m.nullValue) (m.beforeLower a) a w, e.1 ≤ a := by
    intro e he
    rcases mem_push he with he | rfl
    · exact le_of_lt (hlow e he)
    · exact le_rfl
  refine ⟨?_, fun x hx => ?_⟩
  · rw [valueAt]
    dsimp only
    rw [entryAt_append_left fun e he => hup e he, entryAt_of_le hpush, push_last]
  · rcases lt_or_ge x a with hlt | hge
    · rw [valueAt]
      dsimp only
      rw [entryAt_append_left fun e he => lt_trans hlt (hup e he), entryAt_push hlow,
        if_neg (not_le.mpr hlt), valueAt, ← lower_split (m := m) (a := a), entryAt_append_left]
      exact fun e he => lt_of_lt_of_le hlt (h.le_of_mem_lowerBound he)
    · have hw : w = m.valueAt a := hx.resolve_left (not_lt.mpr hge)
      have hold : m.valueAt x = (entryAt Prod.fst
          ((m.beforeUpper a).getLastD (keyMin, m.nullValue)) (m.upperBound a) x).2 := by
        rw [valueAt, ← entryAt_append_right fun e he => le_trans (le_of_mem_beforeUpper he) hge,
          upper_split]
      rw [hold, valueAt]
      dsimp only
      rw [entryAt_append_right fun e he => le_trans (hpush e he) hge]
      refine @entryAt_congr _ _ _ _ Prod.fst _ _ _ _ Prod.snd ?_
      rw [push_last, h.beforeUpper_last, hw]

theorem Begun.push_empty (h : Begun m) (ha : 0 ≤ a) :
    Begun ⟨m.nullValue, push (keyMin, m.nullValue) (m.beforeLower a) a w ++ m.upperBound a⟩ := by
  have hlow : ∀ e ∈ m.beforeLower a, e.1 < a := fun e he => lt_of_mem_beforeLower he
  have hup : ∀ e ∈ m.upperBound a, a < e.1 := fun e he => h.lt_of_mem_upperBound he
  obtain ⟨A, hA⟩ := h.beforeLower_cons ha
  obtain ⟨l, hl, hpos⟩ := h.first
  obtain ⟨A1, hA1, hmem1⟩ :=
    push_cons (d := (keyMin, m.nullValue)) (e := (keyMin, m.nullValue)) (A := A) (k := a) (v := w)
  refine ⟨⟨A1 ++ m.upperBound a, ?_, fun e he => ?_⟩, ?_⟩
  · dsimp only
    rw [hA, hA1]
    rfl
  · rcases List.mem_append.mp he with he | he
    · rcases hmem1 e he with he | rfl
      · have hAl : A ++ m.lowerBound a = l := by
          have hsplit := lower_split (m := m) (a := a)
          rw [hA, hl, List.cons_append] at hsplit
          exact (List.cons.inj hsplit).2
        exact hpos e (hAl ▸ List.mem_append_left _ he)
      · exact ha
    · exact le_of_lt (lt_of_le_of_lt ha (hup e he))
  · refine List.pairwise_append.mpr ⟨push_sorted (h.sorted.sublist (List.takeWhile_sublist _)) hlow,
      h.sorted.sublist (List.dropWhile_sublist _), fun e he f hf => ?_⟩
    refine lt_of_le_of_lt ?_ (hup f hf)
    rcases mem_push he with he | rfl
    · exact le_of_lt (hlow e he)
    · exact le_rfl

theorem Kept.push_empty (h : Kept m) (ha : 0 ≤ a) (hw : w = m.valueAt a ∨ ∃ e ∈ m.container, a < e.1) :
    Kept ⟨m.nullValue, push (keyMin, m.nullValue) (m.beforeLower a) a w ++ m.upperBound a⟩ := by
  refine ⟨h.toBegun.push_empty ha, ?_⟩
  have hlast := h.last
  rw [← upper_split (m := m) (b := a)] at hlast
  dsimp only
  cases hB : m.upperBound a with
  | nil =>
    rw [hB, List.append_nil, h.beforeUpper_last] at hlast
    rw [List.append_nil, push_last]
    rcases hw with hw | ⟨e, he, hlt⟩
    · exact hw.trans hlast
    · have hin := (h.mem_upperBound_iff he).mpr hlt
      rw [hB] at hin
      exact absurd hin List.not_mem_nil
  | cons f B =>
    rw [hB, List.getLastD_eq_getLast?, List.getLast?_append_cons] at hlast
    rw [List.getLastD_eq_getLast?, List.getLast?_append_cons]
    exact hlast

omit [DecidableEq V] in
theorem takeWhile_congr {p q : Int × V → Bool} {l : List (Int × V)} (h : ∀ e ∈ l, p e = q e) :
    l.takeWhile p = l.takeWhile q := by
  induction l with
  | nil => rfl
  | cons e l ih =>
    rw [List.takeWhile_cons, List.takeWhile_cons, h e List.mem_cons_self,
      ih fun d hd => h d (List.mem_cons_of_mem _ hd)]

theorem turned_split (hba : b < a) (hnone : ∀ e ∈ m.container, ¬(b < e.1 ∧ e.1 < a)) :
    m.beforeLower a = m.beforeUpper b ∧ m.lowerBound a = m.upperBound b := by
  have heq : m.beforeLower a = m.beforeUpper b := by
    refine takeWhile_congr fun e he => ?_
    have hout := hnone e he
    by_cases hb : e.1 ≤ b
    · rw [decide_eq_true hb, decide_eq_true (lt_of_le_of_lt hb hba)]
    · rw [decide_eq_false hb, decide_eq_false fun hlt => hout ⟨not_le.mp hb, hlt⟩]
  have happend : m.beforeLower a ++ m.lowerBound a = m.beforeLower a ++ m.upperBound b := by
    rw [lower_split, heq, upper_split]
  exact ⟨heq, List.append_cancel_left happend⟩

theorem Kept.eraseReturns_iff (h : Kept m) (hba : b < a) :
    m.EraseReturns a b ↔ ∀ e ∈ m.container, ¬(b < e.1 ∧ e.1 < a) := by
  constructor
  · intro hret e he hbetween
    have hleading : m.beforeLower a <+: m.beforeUpper b := List.prefix_of_prefix_length_le
      (List.takeWhile_prefix _) (List.takeWhile_prefix _) hret
    have hlow : e ∈ m.beforeLower a := by
      rw [← lower_split (m := m) (a := a)] at he
      refine (List.mem_append.mp he).resolve_right fun hin => ?_
      exact absurd (h.le_of_mem_lowerBound hin) (not_le.mpr hbetween.2)
    exact absurd (le_of_mem_beforeUpper (hleading.subset hlow)) (not_le.mpr hbetween.1)
  · intro hnone
    exact le_of_eq (congrArg List.length (turned_split hba hnone).1)

theorem eraseReturns_of_le (hab : a ≤ b) : m.EraseReturns a b := by
  have hsub : m.beforeLower a = (m.beforeUpper b).takeWhile fun e => decide (e.1 < a) := by
    rw [beforeUpper, List.takeWhile_takeWhile]
    refine takeWhile_congr fun e _ => ?_
    by_cases ha : e.1 < a
    · simp [ha, le_trans (le_of_lt ha) hab]
    · simp [ha]
  rw [EraseReturns, hsub]
  exact (List.takeWhile_prefix _).length_le

/-- **`InternalMap` of a turned range** erases nothing and emplaces at both ends. The values below
the start stay. -/
theorem Kept.internalMap_turned (h : Kept m) (hb : 0 ≤ b) (hba : b < a)
    (hnone : ∀ e ∈ m.container, ¬(b < e.1 ∧ e.1 < a)) :
    (∀ x < a, (m.internalMap a b v).valueAt x = m.valueAt x) ∧ Begun (m.internalMap a b v) ∧
    ((v = m.getFirstValueWithin a ∨ ∃ e ∈ m.container, a ≤ e.1) → Kept (m.internalMap a b v)) := by
  obtain ⟨hlow, hup⟩ := turned_split hba hnone
  have hfirst : m.getFirstValueWithin a = m.valueAt b := by
    rw [h.getFirstValueWithin_eq (le_of_lt (lt_of_le_of_lt hb hba)), hlow, h.beforeUpper_last]
  have hwhole : m.beforeLower a ++ m.upperBound b = m.container := by
    rw [← hup, lower_split]
  rw [RangeMap.internalMap, h.getLastValueWithin_eq hb, hwhole, hfirst]
  by_cases hv : m.valueAt b = v
  · simp only [hv, ne_eq, not_true_eq_false, if_false]
    exact ⟨fun _ _ => trivial, h.toBegun, fun _ => h⟩
  · simp only [ne_eq, hv, not_false_eq_true, if_true]
    have hsame : (m.emplace a v).valueAt b = m.valueAt b := valueAt_emplace_of_lt hba
    have ha : 0 ≤ a := le_of_lt (lt_of_le_of_lt hb hba)
    refine ⟨fun x hx => ?_, (h.toBegun.emplace ha).emplace hb, fun hend => ?_⟩
    · rw [← hsame]
      exact valueAt_emplace_of_eq.trans (valueAt_emplace_of_lt hx)
    · obtain ⟨e, he, hle⟩ := hend.resolve_left fun heq => hv heq.symm
      have hkept := @Kept.emplace _ _ m a v h ha ⟨e, he, hle⟩
      -- the entry behind both ends is there after the first emplace
      exact hkept.emplace hb ⟨e, mem_emplace he, le_trans (le_of_lt hba) hle⟩

/-! ## 4. The clamp -/

theorem clamp_cases {a b : BitVec 64} (hab : a.toNat ≤ b.toNat) :
    (clampKey a = a.toNat ∧ clampKey b = b.toNat ∧ b.toNat < 2 ^ 63) ∨
    (clampKey a = 0 ∧ clampKey b = 0 ∧ 2 ^ 63 ≤ a.toNat) ∨
    (clampKey a = a.toNat ∧ clampKey b = 0 ∧ a.toNat < 2 ^ 63 ∧ 2 ^ 63 ≤ b.toNat) := by
  have ha := BitVec.toInt_eq_toNat_cond a
  have hb := BitVec.toInt_eq_toNat_cond b
  have hlt := a.isLt
  have hlt' := b.isLt
  unfold clampKey
  rw [ha, hb]
  split_ifs <;> omega

theorem clampKey_nonneg (k : BitVec 64) : 0 ≤ clampKey k := by
  unfold clampKey
  split_ifs <;> omega

theorem clampKey_lt (k : BitVec 64) : clampKey k < 2 ^ 63 := by
  have hk := BitVec.toInt_eq_toNat_cond k
  have hlt := k.isLt
  unfold clampKey
  rw [hk]
  split_ifs <;> omega

section Calls

variable {a b : BitVec 64}

theorem mapKeys_eq_some (hret : m.EraseReturns (clampKey a) (clampKey b)) :
    m.mapKeys a b v = some (m.internalMap (clampKey a) (clampKey b) v) := if_pos hret

/-- **The frame law of one call holds exactly under its condition.** -/
theorem Kept.framed_iff (h : Kept m) (hab : a.toNat ≤ b.toNat) : m.Framed a b v ↔ m.Meets a b v := by
  have ha := clampKey_nonneg a
  have hb := clampKey_nonneg b
  have hlt := clampKey_lt a
  rcases lt_trichotomy (clampKey a) (clampKey b) with hord | hord | hord
  · -- a range that is not empty
    refine iff_of_true ?_ (.inl hord)
    refine ⟨_, mapKeys_eq_some (eraseReturns_of_le (le_of_lt hord)), fun x hx hx' hout => ?_⟩
    rw [(h.internalMap ha hord).getValueAt_eq, h.getValueAt_eq, h.valueAt_internalMap ha hord, if_neg]
    rcases clamp_cases hab with ⟨h1, h2, -⟩ | ⟨h1, h2, -⟩ | ⟨h1, h2, -⟩
    · rwa [h1, h2]
    · omega
    · omega
  · -- an empty range: the value at the key decides
    have hmap : m.mapKeys a b v = some ⟨m.nullValue,
        push (keyMin, m.nullValue) (m.beforeLower (clampKey a)) (clampKey a)
          (if m.getFirstValueWithin (clampKey a) ≠ v then v else m.valueAt (clampKey a)) ++
        m.upperBound (clampKey a)⟩ := by
      rw [mapKeys_eq_some (eraseReturns_of_le (le_of_eq hord)), ← hord, h.internalMap_empty ha]
    obtain ⟨hat, hkeep⟩ := @Kept.valueAt_empty _ _ m (clampKey a)
      (if m.getFirstValueWithin (clampKey a) ≠ v then v else m.valueAt (clampKey a)) h
    have hget := fun x => (@Begun.push_empty _ _ m (clampKey a)
      (if m.getFirstValueWithin (clampKey a) ≠ v then v else m.valueAt (clampKey a))
      h.toBegun ha).getValueAt_eq (x := x)
    constructor
    · intro hframe
      obtain ⟨m', hm', hout⟩ := hframe
      obtain rfl := Option.some.inj (hmap.symm.trans hm')
      refine .inr (.inl ⟨hord, ?_⟩)
      by_cases hwhole : a = 0#64 ∧ 2 ^ 63 ≤ b.toNat
      · exact .inr (.inr hwhole)
      · have hkey := hout (clampKey a) ha hlt (by
          rcases clamp_cases hab with ⟨h1, h2, -⟩ | ⟨h1, h2, h3⟩ | ⟨h1, h2, -, h3⟩
          · omega
          · omega
          · refine absurd ⟨BitVec.eq_of_toNat_eq ?_, h3⟩ hwhole
            have hzero : (a.toNat : Int) = 0 := by rw [← h1, hord, h2]
            exact Int.natCast_eq_zero.mp hzero)
        rw [hget, hat, h.getValueAt_eq] at hkey
        by_cases hv : m.getFirstValueWithin (clampKey a) = v
        · exact .inl hv.symm
        · rw [if_pos hv] at hkey
          rw [h.getValueAt_eq]
          exact .inr (.inl hkey)
    · intro hmeets
      have hcond := (hmeets.resolve_left (by omega)).resolve_right (fun hne => by omega)
      refine ⟨_, hmap, fun x hx hx' hout => ?_⟩
      rw [hget, h.getValueAt_eq]
      rcases hcond.2 with hv | hv | ⟨rfl, hb'⟩
      · exact hkeep x (.inr (if_neg (not_not.mpr hv.symm)))
      · refine hkeep x (.inr ?_)
        rw [h.getValueAt_eq] at hv
        rw [hv]
        split <;> rfl
      · exact absurd ⟨by simpa using hx, by omega⟩ hout
  · -- a turned range
    have hret := h.eraseReturns_iff hord
    constructor
    · intro hframe
      obtain ⟨m', hm', -⟩ := hframe
      refine .inr (.inr ⟨hord, hret.mp ?_⟩)
      by_contra hno
      rw [mapKeys, if_neg hno] at hm'
      cases hm'
    · intro hmeets
      obtain ⟨-, hnone⟩ := (hmeets.resolve_left (by omega)).resolve_left (fun heq => by omega)
      obtain ⟨hkeep, hbegun, -⟩ := @Kept.internalMap_turned _ _ m _ _ v h hb hord hnone
      refine ⟨_, mapKeys_eq_some (hret.mpr hnone), fun x hx hx' hout => ?_⟩
      rw [hbegun.getValueAt_eq, h.getValueAt_eq]
      refine hkeep x ?_
      rcases clamp_cases hab with ⟨h1, h2, -⟩ | ⟨h1, h2, -⟩ | ⟨h1, h2, -, h3⟩
      · omega
      · omega
      · omega

/-- A call that meets its condition and keeps the end leaves a map in order. -/
theorem Kept.mapKeys (h : Kept m) (hmeets : m.Meets a b v) (hend : m.KeepsEnd a b v) {m' : RangeMap V}
    (hm' : m.mapKeys a b v = some m') : Kept m' := by
  have ha := clampKey_nonneg a
  have hb := clampKey_nonneg b
  rw [RangeMap.mapKeys] at hm'
  split at hm'
  · obtain rfl := Option.some.inj hm'
    show Kept (m.internalMap (clampKey a) (clampKey b) v)
    rcases lt_trichotomy (clampKey a) (clampKey b) with hord | hord | hord
    · exact h.internalMap ha hord
    · rw [← hord, h.internalMap_empty ha]
      refine h.push_empty ha ?_
      rcases hend with hlt | hv | hv | ⟨e, he, hlt⟩
      · omega
      · exact .inl (if_neg (not_not.mpr hv.symm))
      · rw [h.getValueAt_eq] at hv
        refine .inl ?_
        rw [hv]
        split <;> rfl
      · rw [if_pos hord] at hlt
        exact .inr ⟨e, he, hlt⟩
    · obtain ⟨-, hnone⟩ := (hmeets.resolve_left (by omega)).resolve_left (fun heq => by omega)
      refine (h.internalMap_turned hb hord hnone).2.2 ?_
      rcases hend with hlt | hv | hv | ⟨e, he, hle⟩
      · omega
      · exact .inl hv
      · -- without a breakpoint between the ends the value at the start is the one before it, or
        -- the start has a breakpoint
        by_cases hex : ∃ e ∈ m.container, clampKey a ≤ e.1
        · exact .inr hex
        · refine .inl ?_
          have hall : ∀ e ∈ m.container, e.1 < clampKey a := fun e he =>
            not_le.mp fun hle => hex ⟨e, he, hle⟩
          have hlow : m.beforeLower (clampKey a) = m.container :=
            List.takeWhile_eq_self_iff.mpr fun e he => decide_eq_true (hall e he)
          rw [hv, h.getValueAt_eq, h.getFirstValueWithin_eq ha, hlow, valueAt,
            entryAt_of_le fun e he => le_of_lt (hall e he)]
      · rw [if_neg (by omega)] at hle
        exact .inr ⟨e, he, hle⟩
  · cases hm'

end Calls

/-! ## 5. Runs -/

theorem kept_make {null : V} : Kept (make null) := ok_make.kept

/-- A step of a run: `Map`, or `Unmap` with the null value, of keys in order that meets the condition
and keeps the end. -/
def KeyStep (m : RangeMap V) (call : BitVec 64 × BitVec 64 × V) (m' : RangeMap V) : Prop :=
  call.1.toNat ≤ call.2.1.toNat ∧ m.Meets call.1 call.2.1 call.2.2 ∧
    m.KeepsEnd call.1 call.2.1 call.2.2 ∧ m.mapKeys call.1 call.2.1 call.2.2 = some m'

theorem kept_of_path {null : V} {calls : List (BitVec 64 × BitVec 64 × V)}
    (hrun : Path KeyStep (make null) calls m) : Kept m := by
  refine hrun.invariant Kept (fun s call s' _ hs hstep => ?_) kept_make
  exact hs.mapKeys hstep.2.1 hstep.2.2.1 hstep.2.2.2

/-- **The frame law over runs.** After calls that meet their condition and keep the end, a call for
keys in order keeps the values outside its range exactly when it meets the condition. -/
theorem map_framed_iff (null : V) (calls : List (BitVec 64 × BitVec 64 × V)) (m : RangeMap V)
    (hrun : Path KeyStep (make null) calls m) (a b : BitVec 64) (v : V) (hab : a.toNat ≤ b.toNat) :
    m.Framed a b v ↔ m.Meets a b v :=
  (kept_of_path hrun).framed_iff hab

/-- A range is mapped, and its value mapped once more on the empty range at its end. -/
theorem map_framed_iff_at_end :
    ∃ m, (make 0).mapKeys 5#64 10#64 1 = some m ∧ m.Framed 10#64 10#64 (1 : Nat) := by
  have hmap : (make 0).mapKeys 5#64 10#64 (1 : Nat) =
      some ⟨0, [(keyMin, 0), (5, 1), (10, 0)]⟩ := by
    rw [mapKeys, if_pos (by decide)]
    rfl
  refine ⟨_, hmap, ?_⟩
  have hrun : Path KeyStep (make 0) [(5#64, 10#64, (1 : Nat))] ⟨0, [(keyMin, 0), (5, 1), (10, 0)]⟩ :=
    .cons ⟨by decide, by decide, by decide, hmap⟩ (.nil _)
  exact (map_framed_iff 0 _ _ hrun 10#64 10#64 1 (by decide)).mpr (by decide)

/-- Mapping an empty range of a new map: every key from it on gets the value. -/
theorem empty_map_not_framed : ¬∀ (calls : List (BitVec 64 × BitVec 64 × Nat)) (m : RangeMap Nat),
      Path (fun m call m' => call.1.toNat ≤ call.2.1.toNat ∧
        m.mapKeys call.1 call.2.1 call.2.2 = some m') (make 0) calls m →
      ∀ (a b : BitVec 64) (v : Nat), a.toNat ≤ b.toNat → m.Framed a b v := by
  intro hall
  have hframed := hall [] (make 0) (.nil _) 5#64 5#64 1 le_rfl
  exact absurd ((kept_make.framed_iff le_rfl).mp hframed) (by decide)

end Yuzu.Common.RangeMap
