/-
  File:      Yuzu/Common/RangeMap.lean
  Subject:   Common::RangeMap (common/range_map.h): values on ranges of addresses.

  The container is an ordered map; a value holds from its key up to the next key. Here it is the
  list of its entries in order, and an iterator is what follows it in the list.

  * `RangeMap.Ok` -- the container is in normal form;
  * `Ok.internalMap` -- mapping a range keeps it and changes the function in the range only;
  * `MapOp.run_refines_function` -- so every run refines a total function on addresses.
-/
import Mathlib.Data.List.Chain
import Mathlib.Data.List.TakeWhile
import Yuzu.Lib.Breakpoints

set_option linter.unusedSectionVars false

namespace Yuzu.Common

open List

/-- `std::numeric_limits<KeyT>::min()`, for 64-bit keys. -/
def keyMin : Int := -2 ^ 63

/-- `std::numeric_limits<KeyT>::max()`. -/
def keyMax : Int := 2 ^ 63 - 1

/-- `RangeMap`. -/
structure RangeMap (V : Type) where
  nullValue : V
  container : List (Int × V)

namespace RangeMap

variable {V : Type} [DecidableEq V]

/-- A new map has its null value everywhere. -/
def make (nullValue : V) : RangeMap V := ⟨nullValue, [(keyMin, nullValue)]⟩

/-! ## 1. The container -/

/-- The entries before `lower_bound(address)`. -/
def beforeLower (m : RangeMap V) (address : Int) : List (Int × V) :=
  m.container.takeWhile fun e => decide (e.1 < address)

/-- The entries from `lower_bound(address)` on. -/
def lowerBound (m : RangeMap V) (address : Int) : List (Int × V) :=
  m.container.dropWhile fun e => decide (e.1 < address)

/-- The entries before `upper_bound(address)`. -/
def beforeUpper (m : RangeMap V) (address : Int) : List (Int × V) :=
  m.container.takeWhile fun e => decide (e.1 ≤ address)

/-- The entries from `upper_bound(address)` on. -/
def upperBound (m : RangeMap V) (address : Int) : List (Int × V) :=
  m.container.dropWhile fun e => decide (e.1 ≤ address)

/-- `container.emplace`: an entry that is there stays. -/
def emplace (m : RangeMap V) (key : Int) (value : V) : RangeMap V :=
  match m.lowerBound key with
  | (k, v) :: l =>
    if k = key then m
    else { m with container := m.beforeLower key ++ (key, value) :: (k, v) :: l }
  | [] => { m with container := m.beforeLower key ++ [(key, value)] }

def getFirstElementBeforeOrOn (m : RangeMap V) (address : Int) : List (Int × V) :=
  match (m.beforeLower address).getLast?, m.lowerBound address with
  | none, it => it
  | some e, (k, v) :: it => if k = address then (k, v) :: it else e :: (k, v) :: it
  | some e, [] => [e]

def getFirstValueWithin (m : RangeMap V) (address : Int) : V :=
  match (m.beforeLower address).getLast?, m.lowerBound address with
  | none, e :: _ => e.2
  | none, [] => m.nullValue
  | some _, [] => m.nullValue
  | some e, _ :: _ => e.2

def getLastValueWithin (m : RangeMap V) (address : Int) : V :=
  match m.upperBound address, (m.beforeUpper address).getLast? with
  | [], _ => m.nullValue
  | e :: _, none => e.2
  | _ :: _, some e => e.2

/-! ## 2. The operations -/

/-- `InternalMap`. -/
def internalMap (m : RangeMap V) (address addressEnd : Int) (value : V) : RangeMap V :=
  let mustAddStart := m.getFirstValueWithin address ≠ value
  let lastValue := m.getLastValueWithin addressEnd
  let mustAddEnd := lastValue ≠ value
  let m : RangeMap V := { m with container := m.beforeLower address ++ m.upperBound addressEnd }
  let m := if mustAddStart then m.emplace address value else m
  if mustAddEnd then m.emplace addressEnd lastValue else m

/-- `Map`, with the addresses as signed keys. -/
def map (m : RangeMap V) (address addressEnd : Int) (value : V) : RangeMap V :=
  m.internalMap (if address < 0 then 0 else address) (if addressEnd < 0 then 0 else addressEnd) value

def unmap (m : RangeMap V) (address addressEnd : Int) : RangeMap V :=
  m.map address addressEnd m.nullValue

def continuousSizeInternal (m : RangeMap V) (address : Int) : Int :=
  match m.getFirstElementBeforeOrOn address with
  | [] => 0
  | (_, v) :: itEnd =>
    if v = m.nullValue then 0
    else match itEnd with
      | [] => keyMax - address
      | (k, _) :: _ => k - address

def getContinuousSizeFrom (m : RangeMap V) (address : Int) : Int :=
  if address < 0 then 0 else m.continuousSizeInternal address

def getValueInternal (m : RangeMap V) (address : Int) : V :=
  match m.getFirstElementBeforeOrOn address with
  | [] => m.nullValue
  | (_, v) :: _ => v

def getValueAt (m : RangeMap V) (address : Int) : V :=
  if address < 0 then m.nullValue else m.getValueInternal address

/-! ## 3. The normal form -/

/-- Keys increase from the least one on, neighbours differ, and the last value is null. -/
structure Ok (m : RangeMap V) : Prop where
  first : ∃ l, m.container = (keyMin, m.nullValue) :: l ∧ ∀ e ∈ l, 0 ≤ e.1
  sorted : m.container.Pairwise (·.1 < ·.1)
  distinct : m.container.IsChain (·.2 ≠ ·.2)
  last : (m.container.getLastD (keyMin, m.nullValue)).2 = m.nullValue
  bounded : ∀ e ∈ m.container, e.1 ≤ keyMax

/-- What reading the function takes: the keys increase from the least one on. -/
structure Begun (m : RangeMap V) : Prop where
  first : ∃ l, m.container = (keyMin, m.nullValue) :: l ∧ ∀ e ∈ l, 0 ≤ e.1
  sorted : m.container.Pairwise (·.1 < ·.1)

/-- What mapping takes: the last value is null, too. Neighbours may be equal. -/
structure Kept (m : RangeMap V) : Prop extends Begun m where
  last : (m.container.getLastD (keyMin, m.nullValue)).2 = m.nullValue

/-- The function that the container stands for. -/
def valueAt (m : RangeMap V) (x : Int) : V :=
  (entryAt Prod.fst (keyMin, m.nullValue) m.container x).2

variable {m : RangeMap V} {a b x : Int} {v : V}

theorem Ok.kept (h : Ok m) : Kept m := ⟨⟨h.first, h.sorted⟩, h.last⟩

theorem ok_make {null : V} : Ok (make null) := by
  refine ⟨⟨[], rfl, fun e he => nomatch he⟩, ?_, ?_, rfl, ?_⟩
  · exact pairwise_singleton _ _
  · exact isChain_singleton _
  · intro e he
    rw [mem_singleton.mp he]
    exact (by decide : keyMin ≤ keyMax)

theorem valueAt_make {null : V} : (make null).valueAt x = null := by
  rw [valueAt, make, entryAt]
  split <;> rfl

theorem lower_split : m.beforeLower a ++ m.lowerBound a = m.container :=
  takeWhile_append_dropWhile

theorem upper_split : m.beforeUpper b ++ m.upperBound b = m.container :=
  takeWhile_append_dropWhile

variable {e : Int × V}

theorem lt_of_mem_beforeLower (he : e ∈ m.beforeLower a) : e.1 < a :=
  of_decide_eq_true (mem_takeWhile_imp (p := fun e : Int × V => decide (e.1 < a)) he)

theorem le_of_mem_beforeUpper (he : e ∈ m.beforeUpper b) : e.1 ≤ b :=
  of_decide_eq_true (mem_takeWhile_imp (p := fun e : Int × V => decide (e.1 ≤ b)) he)

theorem Begun.le_of_mem_lowerBound (h : Begun m) (he : e ∈ m.lowerBound a) : a ≤ e.1 :=
  le_of_mem_dropWhile h.sorted e he

theorem Begun.lt_of_mem_upperBound (h : Begun m) (he : e ∈ m.upperBound b) : b < e.1 :=
  lt_of_mem_dropWhile h.sorted e he

theorem Begun.beforeLower_cons (h : Begun m) (ha : 0 ≤ a) :
    ∃ A, m.beforeLower a = (keyMin, m.nullValue) :: A := by
  obtain ⟨l, hl, -⟩ := h.first
  have hmin : keyMin < a := by
    unfold keyMin
    omega
  refine ⟨l.takeWhile fun e => decide (e.1 < a), ?_⟩
  rw [beforeLower, hl]
  exact takeWhile_cons_of_pos (decide_eq_true hmin)

theorem Begun.valueAt_neg (h : Begun m) (hx : x < 0) : m.valueAt x = m.nullValue := by
  obtain ⟨l, hl, hpos⟩ := h.first
  rw [valueAt, hl, entryAt]
  split
  · rw [entryAt_of_lt fun e he => lt_of_lt_of_le hx (hpos e he)]
  · rfl

/-- **The element before or on an address** is the one whose value holds there. -/
theorem Begun.beforeOrOn (h : Begun m) (hx : 0 ≤ x) : ∃ A e B, m.container = A ++ e :: B ∧
    m.getFirstElementBeforeOrOn x = e :: B ∧ (∀ e ∈ A, e.1 ≤ x) ∧ e.1 ≤ x ∧ ∀ e ∈ B, x < e.1 := by
  obtain ⟨A0, hA0⟩ := h.beforeLower_cons hx
  have hsplit := lower_split (m := m) (a := x)
  have hsorted := h.sorted
  rw [← hsplit] at hsorted
  obtain ⟨-, hsB, -⟩ := pairwise_append.mp hsorted
  have hne : m.beforeLower x ≠ [] := by
    rw [hA0]
    exact cons_ne_nil _ _
  -- the entries below the address end with one that is returned unless the address has an entry
  obtain ⟨A, e, hAe⟩ : ∃ A e, m.beforeLower x = A ++ [e] :=
    ⟨_, _, (dropLast_append_getLast hne).symm⟩
  have hlt : ∀ e' ∈ A ++ [e], e'.1 < x := fun e' he' =>
    lt_of_mem_beforeLower (m := m) (hAe ▸ he')
  have hle : ∀ e' ∈ A ++ [e], e'.1 ≤ x := fun e' he' => le_of_lt (hlt e' he')
  have hlast : (m.beforeLower x).getLast? = some e := by
    rw [hAe, List.getLast?_concat]
  cases hB : m.lowerBound x with
  | nil =>
    refine ⟨A, e, [], ?_, ?_, fun e' he' => hle e' (mem_append_left _ he'),
      hle e (mem_append_right _ mem_cons_self), fun e' he' => nomatch he'⟩
    · rw [← hsplit, hAe, hB, append_nil]
    · rw [getFirstElementBeforeOrOn, hlast, hB]
  | cons f B =>
    obtain ⟨k, w⟩ := f
    rw [hB] at hsB
    obtain ⟨hfB, -⟩ := pairwise_cons.mp hsB
    have hk : x ≤ k := h.le_of_mem_lowerBound (e := (k, w)) (hB ▸ mem_cons_self)
    by_cases hkx : k = x
    · refine ⟨A ++ [e], (k, w), B, ?_, ?_, hle, le_of_eq hkx, fun e' he' => ?_⟩
      · rw [← hsplit, hAe, hB]
      · rw [getFirstElementBeforeOrOn, hlast, hB]
        exact if_pos hkx
      · exact lt_of_le_of_lt hk (hfB e' he')
    · refine ⟨A, e, (k, w) :: B, ?_, ?_, fun e' he' => hle e' (mem_append_left _ he'),
        hle e (mem_append_right _ mem_cons_self), fun e' he' => ?_⟩
      · rw [← hsplit, hAe, hB, append_assoc, singleton_append]
      · rw [getFirstElementBeforeOrOn, hlast, hB]
        exact if_neg hkx
      · rcases mem_cons.mp he' with rfl | he'
        · exact lt_of_le_of_ne hk (Ne.symm hkx)
        · exact lt_of_le_of_lt hk (hfB e' he')

/-- **`GetValueAt`** reads the function. -/
theorem Begun.getValueAt_eq (h : Begun m) : m.getValueAt x = m.valueAt x := by
  rw [getValueAt]
  split
  · rename_i hx
    exact (h.valueAt_neg hx).symm
  · rename_i hx
    obtain ⟨A, e, B, hc, hit, hA, he, hB⟩ := h.beforeOrOn (x := x) (by omega)
    rw [getValueInternal, hit, valueAt, hc, entryAt_cut hA he hB]

/-- **`GetContinuousSizeFrom`**: nothing at a null value, elsewhere the rest of the run. -/
theorem Ok.getContinuousSizeFrom_spec (h : Ok m) :
    (m.valueAt x = m.nullValue → m.getContinuousSizeFrom x = 0) ∧
    (m.valueAt x ≠ m.nullValue → 0 < m.getContinuousSizeFrom x ∧ x + m.getContinuousSizeFrom x ≤ keyMax ∧
      (∀ y, x ≤ y → y < x + m.getContinuousSizeFrom x → m.valueAt y = m.valueAt x) ∧
      m.valueAt (x + m.getContinuousSizeFrom x) ≠ m.valueAt x) := by
  rw [getContinuousSizeFrom]
  split
  · rename_i hx
    exact ⟨fun _ => rfl, fun hne => absurd (h.kept.valueAt_neg hx) hne⟩
  rename_i hx
  obtain ⟨A, e, B, hc, hit, hA, he, hB⟩ := h.kept.beforeOrOn (x := x) (by omega)
  have hval : m.valueAt x = e.2 := by rw [valueAt, hc, entryAt_cut hA he hB]
  rw [continuousSizeInternal, hit, hval]
  refine ⟨fun hnull => if_pos hnull, fun hnull => ?_⟩
  dsimp only
  rw [if_neg hnull]
  cases B with
  | nil =>
    -- the last value is null
    refine absurd ?_ hnull
    have := h.last
    rwa [hc, getLastD_concat] at this
  | cons f B =>
    have hxf : x < f.1 := hB f mem_cons_self
    have hsorted := h.sorted
    rw [hc] at hsorted
    obtain ⟨-, hsB, -⟩ := pairwise_append.mp hsorted
    obtain ⟨-, hsB⟩ := pairwise_cons.mp hsB
    obtain ⟨hfB, -⟩ := pairwise_cons.mp hsB
    have hbound := h.bounded f (by rw [hc]; simp)
    have hadd : x + (f.1 - x) = f.1 := by omega
    rw [hadd]
    refine ⟨Int.sub_pos_of_lt hxf, hbound, fun y hxy hyf => ?_, ?_⟩
    · rw [valueAt, hc, entryAt_cut (fun e' he' => le_trans (hA e' he') hxy) (le_trans he hxy)]
      intro e' he'
      rcases mem_cons.mp he' with rfl | he'
      · exact hyf
      · exact lt_trans hyf (hfB e' he')
    · have hc' : m.container = (A ++ [e]) ++ f :: B := by rw [hc]; simp
      rw [valueAt, hc', entryAt_cut _ le_rfl hfB]
      · have hd := h.distinct
        rw [hc] at hd
        have := (isChain_append.mp hd).2.1
        exact Ne.symm (isChain_cons_cons.mp this).1
      · intro e' he'
        rcases mem_append.mp he' with he' | he'
        · exact le_of_lt (lt_of_le_of_lt (hA e' he') hxf)
        · rw [mem_singleton.mp he']
          exact le_of_lt (lt_of_le_of_lt he hxf)

/-! ## 4. Mapping a range -/

/-- A breakpoint at the end of a list, left out where the value is there already. -/
def push (d : Int × V) (A : List (Int × V)) (k : Int) (v : V) : List (Int × V) :=
  if (A.getLastD d).2 ≠ v then A ++ [(k, v)] else A

section Push

variable {d : Int × V} {A B : List (Int × V)} {k : Int}

theorem push_last : ((push d A k v).getLastD d).2 = v := by
  rw [push]
  split
  · rw [getLastD_concat]
  · rename_i h
    exact not_not.mp h

theorem mem_push (he : e ∈ push d A k v) : e ∈ A ∨ e = (k, v) := by
  rw [push] at he
  split at he
  · exact (mem_append.mp he).imp_right mem_singleton.mp
  · exact .inl he

theorem push_cons : ∃ A', push d (e :: A) k v = e :: A' ∧ ∀ f ∈ A', f ∈ A ∨ f = (k, v) := by
  rw [push]
  split
  · exact ⟨A ++ [(k, v)], rfl, fun f hf =>
      (mem_append.mp hf).imp_right mem_singleton.mp⟩
  · exact ⟨A, rfl, fun f hf => .inl hf⟩

theorem push_sorted (hA : A.Pairwise (·.1 < ·.1)) (hk : ∀ e ∈ A, e.1 < k) :
    (push d A k v).Pairwise (·.1 < ·.1) := by
  rw [push]
  split
  · refine pairwise_append.mpr ⟨hA, pairwise_singleton _ _, fun e he f hf => ?_⟩
    rw [mem_singleton.mp hf]
    exact hk e he
  · exact hA

theorem push_distinct (hA : A.IsChain (·.2 ≠ ·.2)) : (push d A k v).IsChain (·.2 ≠ ·.2) := by
  rw [push]
  split
  · rename_i hlast
    refine isChain_append.mpr ⟨hA, isChain_singleton _, fun e he f hf => ?_⟩
    rw [List.head?_cons, Option.mem_some_iff] at hf
    rw [getLastD_eq_getLast?, Option.mem_def.mp he] at hlast
    rw [← hf]
    exact hlast
  · exact hA

theorem entryAt_push (hk : ∀ e ∈ A, e.1 < k) : (entryAt Prod.fst d (push d A k v) x).2 =
      if k ≤ x then v else (entryAt Prod.fst d A x).2 := by
  split
  · rename_i hkx
    rw [entryAt_of_le, push_last]
    intro e he
    rcases mem_push he with he | rfl
    · exact le_trans (le_of_lt (hk e he)) hkx
    · exact hkx
  · rename_i hkx
    rw [push]
    split
    · rw [entryAt_append_left]
      intro e he
      rw [mem_singleton.mp he]
      exact not_le.mp hkx
    · rfl

end Push

theorem emplace_gap {null : V} {A B : List (Int × V)} {k : Int} (hA : ∀ e ∈ A, e.1 < k)
    (hB : ∀ e ∈ B, k < e.1) :
    (⟨null, A ++ B⟩ : RangeMap V).emplace k v = ⟨null, A ++ (k, v) :: B⟩ := by
  have hA' : ∀ e ∈ A, decide (e.1 < k) = true := fun e he => decide_eq_true (hA e he)
  have htake : (⟨null, A ++ B⟩ : RangeMap V).beforeLower k = A := by
    rw [beforeLower, takeWhile_append_of_pos hA']
    cases B with
    | nil => exact append_nil A
    | cons f B =>
      have hf : ¬ f.1 < k := not_lt.mpr (le_of_lt (hB f mem_cons_self))
      rw [takeWhile_cons_of_neg (by simpa using hf), append_nil]
  have hdrop : (⟨null, A ++ B⟩ : RangeMap V).lowerBound k = B := by
    have := lower_split (m := (⟨null, A ++ B⟩ : RangeMap V)) (a := k)
    rw [htake] at this
    exact append_cancel_left this
  rw [emplace, htake, hdrop]
  cases B with
  | nil => rfl
  | cons f B => exact if_neg (ne_of_gt (hB f mem_cons_self))

theorem Kept.getFirstValueWithin_eq (h : Kept m) (ha : 0 ≤ a) :
    m.getFirstValueWithin a = ((m.beforeLower a).getLastD (keyMin, m.nullValue)).2 := by
  obtain ⟨A, hA⟩ := h.beforeLower_cons ha
  have hlast := h.last
  rw [← lower_split (m := m) (a := a)] at hlast
  have hget : (m.beforeLower a).getLast? =
      some ((m.beforeLower a).getLastD (keyMin, m.nullValue)) := by
    rw [hA, getLastD_eq_getLast?, List.getLast?_cons]
    rfl
  rw [getFirstValueWithin, hget]
  cases hB : m.lowerBound a with
  | nil =>
    rw [hB, append_nil] at hlast
    exact hlast.symm
  | cons f B => rfl

theorem Begun.beforeUpper_last (h : Begun m) :
    ((m.beforeUpper b).getLastD (keyMin, m.nullValue)).2 = m.valueAt b := by
  have := upper_split (m := m) (b := b)
  rw [valueAt, ← this, entryAt_append_left fun e he => h.lt_of_mem_upperBound he,
    entryAt_of_le fun e he => le_of_mem_beforeUpper he]

theorem Kept.getLastValueWithin_eq (h : Kept m) (hb : 0 ≤ b) : m.getLastValueWithin b = m.valueAt b := by
  obtain ⟨l, hl, -⟩ := h.first
  have hlast := h.last
  rw [← upper_split (m := m) (b := b)] at hlast
  have hmin : keyMin ≤ b := by
    unfold keyMin
    omega
  have hcons : m.beforeUpper b = (keyMin, m.nullValue) :: l.takeWhile fun e => decide (e.1 ≤ b) := by
    rw [beforeUpper, hl]
    exact takeWhile_cons_of_pos (decide_eq_true hmin)
  have hget : (m.beforeUpper b).getLast? =
      some ((m.beforeUpper b).getLastD (keyMin, m.nullValue)) := by
    rw [hcons, getLastD_eq_getLast?, List.getLast?_cons]
    rfl
  rw [← h.beforeUpper_last, getLastValueWithin, hget]
  cases hB : m.upperBound b with
  | nil =>
    rw [hB, append_nil] at hlast
    exact hlast.symm
  | cons f B => rfl

/-- The container after `InternalMap`: what is below the range, at most two new breakpoints, and
what is above. -/
theorem Kept.internalMap_eq (h : Kept m) (ha : 0 ≤ a) (hab : a < b) : m.internalMap a b v = ⟨m.nullValue,
      push (keyMin, m.nullValue) (push (keyMin, m.nullValue) (m.beforeLower a) a v) b
        (m.valueAt b) ++ m.upperBound b⟩ := by
  have hlow : ∀ e ∈ m.beforeLower a, e.1 < a := fun e he => lt_of_mem_beforeLower he
  have hup : ∀ e ∈ m.upperBound b, b < e.1 := fun e he => h.lt_of_mem_upperBound he
  have hup' : ∀ e ∈ m.upperBound b, a < e.1 := fun e he => lt_trans hab (hup e he)
  rw [internalMap, h.getFirstValueWithin_eq ha, h.getLastValueWithin_eq (by omega)]
  have hstart : (if ((m.beforeLower a).getLastD (keyMin, m.nullValue)).2 ≠ v then
      (⟨m.nullValue, m.beforeLower a ++ m.upperBound b⟩ : RangeMap V).emplace a v
      else ⟨m.nullValue, m.beforeLower a ++ m.upperBound b⟩) =
      ⟨m.nullValue, push (keyMin, m.nullValue) (m.beforeLower a) a v ++ m.upperBound b⟩ := by
    rw [emplace_gap hlow hup', push]
    split
    · rw [append_assoc]
      rfl
    · rfl
  rw [hstart, emplace_gap _ hup, push.eq_1 _ (push _ _ _ _), push_last]
  · by_cases hv : m.valueAt b = v
    · rw [if_neg (not_not.mpr hv), if_neg (not_not.mpr hv.symm)]
    · rw [if_pos hv, if_pos (Ne.symm hv), append_assoc]
      rfl
  · intro e he
    rcases mem_push he with he | rfl
    · exact lt_trans (hlow e he) hab
    · exact hab

/-- **Mapping a range changes the function there and nowhere else.** -/
theorem Kept.valueAt_internalMap (h : Kept m) (ha : 0 ≤ a) (hab : a < b) :
    (m.internalMap a b v).valueAt x = if a ≤ x ∧ x < b then v else m.valueAt x := by
  have hlow : ∀ e ∈ m.beforeLower a, e.1 < a := fun e he => lt_of_mem_beforeLower he
  have hmid : ∀ e ∈ push (keyMin, m.nullValue) (m.beforeLower a) a v, e.1 < b := by
    intro e he
    rcases mem_push he with he | rfl
    · exact lt_trans (hlow e he) hab
    · exact hab
  have hup : ∀ e ∈ m.upperBound b, b < e.1 := fun e he => h.lt_of_mem_upperBound he
  rw [h.internalMap_eq ha hab, valueAt]
  dsimp only
  by_cases hbx : b ≤ x
  · -- behind the range both lists go on from the value at its end
    rw [if_neg fun hx => absurd hx.2 (not_lt.mpr hbx)]
    have hold : m.valueAt x = (entryAt Prod.fst
        ((m.beforeUpper b).getLastD (keyMin, m.nullValue)) (m.upperBound b) x).2 := by
      rw [valueAt, ← entryAt_append_right fun e he => le_trans (le_of_mem_beforeUpper he) hbx, upper_split]
    rw [hold, entryAt_append_right]
    · refine @entryAt_congr _ _ _ _ Prod.fst _ _ _ _ Prod.snd ?_
      rw [push_last, h.beforeUpper_last]
    · intro e he
      rcases mem_push he with he | rfl
      · exact le_trans (le_of_lt (hmid e he)) hbx
      · exact hbx
  · have hxb : x < b := not_le.mp hbx
    rw [entryAt_append_left fun e he => lt_trans hxb (hup e he), entryAt_push hmid, if_neg hbx,
      entryAt_push hlow]
    by_cases hax : a ≤ x
    · rw [if_pos hax, if_pos ⟨hax, hxb⟩]
    · rw [if_neg hax, if_neg fun hx => hax hx.1, valueAt, ← lower_split (m := m) (a := a),
        entryAt_append_left]
      exact fun e he => lt_of_lt_of_le (not_le.mp hax) (h.le_of_mem_lowerBound he)

/-- Mapping a range keeps the order and the null value at the end. -/
theorem Kept.internalMap (h : Kept m) (ha : 0 ≤ a) (hab : a < b) : Kept (m.internalMap a b v) := by
  have hlow : ∀ e ∈ m.beforeLower a, e.1 < a := fun e he => lt_of_mem_beforeLower he
  have hmid : ∀ e ∈ push (keyMin, m.nullValue) (m.beforeLower a) a v, e.1 < b := by
    intro e he
    rcases mem_push he with he | rfl
    · exact lt_trans (hlow e he) hab
    · exact hab
  have hup : ∀ e ∈ m.upperBound b, b < e.1 := fun e he => h.lt_of_mem_upperBound he
  obtain ⟨A, hA⟩ := h.beforeLower_cons ha
  obtain ⟨l, hl, hpos⟩ := h.first
  have hsortLow : (m.beforeLower a).Pairwise (·.1 < ·.1) :=
    h.sorted.sublist (takeWhile_sublist _)
  have hlast := h.last
  rw [← upper_split (m := m) (b := b)] at hlast
  rw [h.internalMap_eq ha hab]
  refine ⟨⟨?first, ?sorted⟩, ?last⟩
  case first =>
    have hAl : A ++ m.lowerBound a = l := by
      have := lower_split (m := m) (a := a)
      rw [hA, hl, cons_append] at this
      exact (cons.inj this).2
    obtain ⟨A1, hA1, hmem1⟩ :=
      push_cons (d := (keyMin, m.nullValue)) (e := (keyMin, m.nullValue)) (A := A) (k := a) (v := v)
    obtain ⟨A2, hA2, hmem2⟩ := push_cons (d := (keyMin, m.nullValue))
      (e := (keyMin, m.nullValue)) (A := A1) (k := b) (v := m.valueAt b)
    refine ⟨A2 ++ m.upperBound b, ?_, fun e he => ?_⟩
    · dsimp only
      rw [hA, hA1, hA2]
      rfl
    · rcases mem_append.mp he with he | he
      · rcases hmem2 e he with he | rfl
        · rcases hmem1 e he with he | rfl
          · exact hpos e (hAl ▸ mem_append_left _ he)
          · exact ha
        · exact le_of_lt (lt_of_le_of_lt ha hab)
      · exact le_of_lt (lt_of_le_of_lt ha (lt_trans hab (hup e he)))
  case sorted =>
    refine pairwise_append.mpr ⟨push_sorted (push_sorted hsortLow hlow) hmid,
      h.sorted.sublist (dropWhile_sublist _), fun e he f hf => ?_⟩
    refine lt_of_le_of_lt ?_ (hup f hf)
    rcases mem_push he with he | rfl
    · exact le_of_lt (hmid e he)
    · exact le_rfl
  case last =>
    dsimp only
    cases hB : m.upperBound b with
    | nil =>
      rw [hB, append_nil, h.beforeUpper_last] at hlast
      rw [append_nil, push_last, hlast]
    | cons f B =>
      rw [hB] at hlast
      rw [getLastD_eq_getLast?, List.getLast?_append_cons] at hlast ⊢
      exact hlast

/-- **Mapping a range keeps the normal form.** -/
theorem Ok.internalMap (h : Ok m) (ha : 0 ≤ a) (hab : a < b) (hb : b ≤ keyMax) :
    Ok (m.internalMap a b v) := by
  have hlow : ∀ e ∈ m.beforeLower a, e.1 < a := fun e he => lt_of_mem_beforeLower he
  have hmid : ∀ e ∈ push (keyMin, m.nullValue) (m.beforeLower a) a v, e.1 < b := by
    intro e he
    rcases mem_push he with he | rfl
    · exact lt_trans (hlow e he) hab
    · exact hab
  have hup : ∀ e ∈ m.upperBound b, b < e.1 := fun e he => h.kept.lt_of_mem_upperBound he
  obtain ⟨l, hl, -⟩ := h.first
  have hupmem : ∀ e ∈ m.upperBound b, e ∈ m.container := fun e he =>
    upper_split (m := m) (b := b) ▸ mem_append_right _ he
  have hchain := h.distinct
  rw [← lower_split (m := m) (a := a)] at hchain
  have hchainLow := (isChain_append.mp hchain).1
  have hchain := h.distinct
  rw [← upper_split (m := m) (b := b)] at hchain
  obtain ⟨-, hchainUp, hjoin⟩ := isChain_append.mp hchain
  have hkept := @Kept.internalMap _ _ m a b v h.kept ha hab
  refine ⟨hkept.first, hkept.sorted, ?distinct, hkept.last, ?bounded⟩
  all_goals rw [h.kept.internalMap_eq ha hab]
  case distinct =>
    refine isChain_append.mpr ⟨push_distinct (push_distinct hchainLow), hchainUp,
      fun e he f hf => ?_⟩
    -- the breakpoint behind the range differs from the value at its end
    have hee := push_last (d := (keyMin, m.nullValue)) (k := b) (v := m.valueAt b)
      (A := push (keyMin, m.nullValue) (m.beforeLower a) a v)
    rw [getLastD_eq_getLast?, Option.mem_def.mp he] at hee
    have hne : m.beforeUpper b ≠ [] := by
      intro hnil
      have := upper_split (m := m) (b := b)
      rw [hnil, hl, nil_append] at this
      have := hup (keyMin, m.nullValue) (this ▸ mem_cons_self)
      unfold keyMin at this
      omega
    have hlast := h.kept.beforeUpper_last (b := b)
    rw [getLastD_eq_getLast?, List.getLast?_eq_some_getLast hne] at hlast
    have := hjoin _ (List.getLast?_eq_some_getLast hne) f hf
    rw [show e.2 = m.valueAt b from hee, ← hlast]
    exact this
  case bounded =>
    intro e he
    rcases mem_append.mp he with he | he
    · rcases mem_push he with he | rfl
      · exact le_of_lt (lt_of_lt_of_le (hmid e he) hb)
      · exact hb
    · exact h.bounded e (hupmem e he)

end RangeMap

/-! ## 5. Runs -/

/-- A call of `Map` or `Unmap`. -/
inductive MapOp (V : Type) where
  | map (address addressEnd : Int) (value : V)
  | unmap (address addressEnd : Int)
deriving DecidableEq

namespace MapOp

variable {V : Type} [DecidableEq V]

/-- The first address of the range. -/
def start : MapOp V → Int
  | map a _ _ => a
  | unmap a _ => a

/-- The end of the range. -/
def stop : MapOp V → Int
  | map _ b _ => b
  | unmap _ b => b

/-- The value that the range gets. -/
def value (null : V) : MapOp V → V
  | map _ _ v => v
  | unmap _ _ => null

/-- The range is a nonempty one of nonnegative keys. -/
def Legal (op : MapOp V) : Prop := 0 ≤ op.start ∧ op.start < op.stop ∧ op.stop < 2 ^ 63

instance (op : MapOp V) : Decidable (Legal op) := inferInstanceAs (Decidable (_ ∧ _))

def covers (op : MapOp V) (x : Int) : Bool := decide (op.start ≤ x ∧ x < op.stop)

def step (m : RangeMap V) : MapOp V → RangeMap V
  | map a b v => m.map a b v
  | unmap a b => m.unmap a b

/-- The container after the operations. -/
def run (m : RangeMap V) (ops : List (MapOp V)) : RangeMap V := ops.foldl step m

/-- The value of the last operation that covers the address, and null if none does. -/
def lastValue (null : V) (ops : List (MapOp V)) (x : Int) : V :=
  ((ops.filter (covers · x)).getLast?.map (value null)).getD null

variable {m : RangeMap V} {op : MapOp V} {ops : List (MapOp V)} {null : V} {x : Int}

theorem step_nullValue : (step m op).nullValue = m.nullValue := by
  have hemplace (m : RangeMap V) (k : Int) (v : V) : (m.emplace k v).nullValue = m.nullValue := by
    rw [RangeMap.emplace]
    split
    · split <;> rfl
    · rfl
  have hinternal (a b : Int) (v : V) : (m.internalMap a b v).nullValue = m.nullValue := by
    rw [RangeMap.internalMap]
    split
    · rw [hemplace]
      split
      · exact hemplace _ _ _
      · rfl
    · split
      · exact hemplace _ _ _
      · rfl
  cases op with
  | map a b v => exact hinternal _ _ v
  | unmap a b => exact hinternal _ _ _

theorem step_eq (h : Legal op) : step m op = m.internalMap op.start op.stop (op.value m.nullValue) := by
  obtain ⟨h0, hlt, -⟩ := h
  cases op with
  | map a b v =>
    rw [start, stop] at *
    rw [step, RangeMap.map, if_neg (not_lt.mpr h0), if_neg (by omega), value]
  | unmap a b =>
    rw [start, stop] at *
    rw [step, RangeMap.unmap, RangeMap.map, if_neg (not_lt.mpr h0), if_neg (by omega), value]

theorem step_ok (h : Legal op) (hm : m.Ok) : (step m op).Ok := by
  rw [step_eq h]
  refine hm.internalMap h.1 h.2.1 ?_
  have := h.2.2
  unfold keyMax
  omega

theorem step_valueAt (h : Legal op) (hm : m.Ok) : (step m op).valueAt x =
    if op.covers x then op.value m.nullValue else m.valueAt x := by
  rw [step_eq h, hm.kept.valueAt_internalMap h.1 h.2.1, covers]
  simp only [decide_eq_true_eq]

theorem lastValue_snoc : lastValue null (ops ++ [op]) x =
    if op.covers x then op.value null else lastValue null ops x := by
  rw [lastValue, filter_append]
  by_cases hop : op.covers x = true
  · have hfilter : [op].filter (covers · x) = [op] := filter_cons_of_pos hop
    rw [hfilter, List.getLast?_concat, if_pos hop]
    rfl
  · have hfilter : [op].filter (covers · x) = [] := filter_cons_of_neg hop
    rw [hfilter, append_nil, if_neg hop]
    rfl

theorem run_ok (hops : ∀ op ∈ ops, Legal op) :
    (run (.make null) ops).Ok ∧ (run (.make null) ops).nullValue = null ∧
      ∀ x, (run (.make null) ops).valueAt x = lastValue null ops x := by
  induction ops using List.reverseRecOn with
  | nil => exact ⟨RangeMap.ok_make, rfl, fun x => RangeMap.valueAt_make⟩
  | append_singleton ops op ih =>
    obtain ⟨hok, hnull, hval⟩ := ih fun o ho => hops o (mem_append_left _ ho)
    have hop := hops op (mem_append_right _ mem_cons_self)
    rw [show run (.make null) (ops ++ [op]) = step (run (.make null) ops) op from
      foldl_append]
    refine ⟨step_ok hop hok, step_nullValue.trans hnull, fun x => ?_⟩
    rw [step_valueAt hop hok, lastValue_snoc, hval, hnull]

/-- **A range map refines a total function on addresses.** Whatever ranges were mapped and
unmapped, the value at an address is that of the last operation covering it, the container is
sorted without equal neighbours and ends with null, and the continuous size is the length of the
maximal run. -/
theorem run_refines_function (null : V) (ops : List (MapOp V)) (hops : ∀ op ∈ ops, Legal op) :
    let m := run (.make null) ops
    (∀ x, m.getValueAt x = lastValue null ops x) ∧
    m.container.Pairwise (·.1 < ·.1) ∧ m.container.IsChain (·.2 ≠ ·.2) ∧
    (∃ k, m.container.getLast? = some (k, null)) ∧
    ∀ x, (m.getValueAt x = null → m.getContinuousSizeFrom x = 0) ∧
      (m.getValueAt x ≠ null → 0 < m.getContinuousSizeFrom x ∧ x + m.getContinuousSizeFrom x < 2 ^ 63 ∧
        (∀ y, x ≤ y → y < x + m.getContinuousSizeFrom x → m.getValueAt y = m.getValueAt x) ∧
        m.getValueAt (x + m.getContinuousSizeFrom x) ≠ m.getValueAt x) := by
  intro m
  obtain ⟨hok, hnull, hval⟩ := @MapOp.run_ok _ _ _ null hops
  have hget : ∀ x, m.getValueAt x = m.valueAt x := fun x => hok.kept.getValueAt_eq
  refine ⟨fun x => (hget x).trans (hval x), hok.sorted, hok.distinct, ?_, fun x => ?_⟩
  · obtain ⟨l, hl, -⟩ := hok.first
    have hlast := hok.last
    have hsome : m.container.getLast? = some (m.container.getLastD (keyMin, m.nullValue)) := by
      rw [show m.container = _ from hl, getLastD_eq_getLast?, List.getLast?_cons]
      rfl
    refine ⟨(m.container.getLastD (keyMin, m.nullValue)).1, ?_⟩
    rw [hsome]
    exact congrArg some (Prod.ext rfl (hlast.trans hnull))
  · obtain ⟨hzero, hrun⟩ := hok.getContinuousSizeFrom_spec (x := x)
    rw [hnull] at hzero hrun
    simp only [hget]
    refine ⟨hzero, fun hne => ?_⟩
    obtain ⟨hpos, hmax, hsame, hend⟩ := hrun hne
    exact ⟨hpos, lt_of_le_of_lt hmax (by decide), hsame, hend⟩

/-- Two adjacent ranges of one value merge and an unmapped part splits them. -/
theorem run_refines_function_split :
    let ops : List (MapOp Nat) := [.map 16 32 7, .map 32 64 7, .unmap 24 40]
    (run (.make 0) ops).getValueAt 20 = 7 ∧ (run (.make 0) ops).getValueAt 24 = 0 := by
  have h := run_refines_function 0 [.map 16 32 7, .map 32 64 7, .unmap 24 40] (by decide)
  exact ⟨h.1 20, h.1 24⟩

end MapOp

end Yuzu.Common
