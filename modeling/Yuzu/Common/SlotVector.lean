/-
  File:      Yuzu/Common/SlotVector.lean
  Subject:   Common::SlotVector (common/slot_vector.h): objects in slots whose ids are recycled.

  The free list holds the slots without an object, the bitset says which slots have one. A growth
  doubles the capacity, moves the objects and frees the new slots. `Slots` pairs the vector with the
  object of each live id, as the calls have it.

  `begin` takes the distance between the first word with a bit and the start of the bitset the wrong way
  round. The id it gives is right only for the first word; for another word it lies behind every slot,
  where `operator++` does not move.
-/
import Mathlib.Data.List.Range
import Mathlib.Data.List.Nodup
import Yuzu.Lib.Word
import Yuzu.Lib.Trace

namespace Yuzu.Common

open Function List Option

/-! ## 1. The vector -/

/-- `SlotVector`. What a slot without an object holds is `none`; the back of the free list is its end. -/
structure SlotVector (T : Type) where
  values : Nat → Option T
  valuesCapacity : Nat
  storedBitset : List (BitVec 64)
  freeList : List Nat

namespace SlotVector

variable {T : Type}

/-- A vector at first. -/
def empty : SlotVector T := ⟨fun _ => none, 0, [], []⟩

/-- `SlotId::INVALID_INDEX`. -/
def invalidIndex : Nat := 2 ^ 32 - 1

/-- `ReadStorageBit`, which is also the iterator's `IsValid`. -/
def readStorageBit (s : SlotVector T) (index : Nat) : Bool :=
  (s.storedBitset.getD (index / 64) 0).getLsbD (index % 64)

/-- `SetStorageBit`. -/
def setStorageBit (s : SlotVector T) (index : Nat) : SlotVector T :=
  { s with storedBitset := s.storedBitset.modify (index / 64) (· ||| 1#64 <<< (index % 64)) }

/-- `ResetStorageBit`. -/
def resetStorageBit (s : SlotVector T) (index : Nat) : SlotVector T :=
  { s with storedBitset := s.storedBitset.modify (index / 64) (· &&& ~~~(1#64 <<< (index % 64))) }

/-- `Reserve`: what is stored is moved, and the new slots are free, each as a `u32`. -/
def reserve (s : SlotVector T) (newCapacity : Nat) : SlotVector T where
  values i := if s.readStorageBit i then s.values i else none
  valuesCapacity := newCapacity
  storedBitset :=
    s.storedBitset ++ List.replicate ((newCapacity + 63) / 64 - s.storedBitset.length) 0
  freeList :=
    s.freeList ++ (List.range (newCapacity - s.valuesCapacity)).map fun i =>
      (s.valuesCapacity + i) % 2 ^ 32

/-- `FreeValueIndex`. -/
def freeValueIndex (s : SlotVector T) : Option (Nat × SlotVector T) :=
  let s :=
    if s.freeList.isEmpty then
      s.reserve (if s.valuesCapacity ≠ 0 then s.valuesCapacity <<< 1 else 1)
    else s
  s.freeList.getLast?.map fun index => (index, { s with freeList := s.freeList.dropLast })

/-- `insert`. -/
def insert (s : SlotVector T) (v : T) : Option (Nat × SlotVector T) :=
  s.freeValueIndex.map fun r =>
    (r.1, ({ r.2 with values := update r.2.values r.1 (some v) }).setStorageBit r.1)

/-- `erase`. -/
def erase (s : SlotVector T) (id : Nat) : SlotVector T :=
  ({ s with values := update s.values id none, freeList := s.freeList ++ [id] }).resetStorageBit id

/-- `operator[]`. -/
def get (s : SlotVector T) (id : Nat) : Option T := s.values id

/-! ## 2. The iterator -/

/-- The index of `begin`: `std::distance(it, stored_bitset.begin())` counts from the word that was
found back to the first one. -/
def beginIndex (s : SlotVector T) : Nat :=
  match s.storedBitset.findIdx? (· ≠ 0) with
  | none => invalidIndex
  | some w =>
    let wordIndex := ((-(w : Int)) % 2 ^ 32).toNat
    (wordIndex * 64 + countrZero 64 (s.storedBitset.getD w 0).toNat) % 2 ^ 32

/-- The size that `operator++` compares with. -/
def iteratorSize (s : SlotVector T) : Nat := (s.storedBitset.length % 2 ^ 32 * 64) % 2 ^ 32

/-- The scan of `operator++`: the first of `n` indices from `i` on that is stored. -/
def scan (s : SlotVector T) : Nat → Nat → Nat
  | 0, i => i
  | n + 1, i => if s.readStorageBit i then i else scan s n (i + 1)

/-- `operator++`. -/
def next (s : SlotVector T) (index : Nat) : Nat :=
  if index < s.iteratorSize then
    let index := s.scan (s.iteratorSize - (index + 1)) (index + 1)
    if index = s.iteratorSize then invalidIndex else index
  else index

/-- The ids that a loop from an index to `end()` visits, if it ends within `fuel` steps. -/
def visits (s : SlotVector T) : Nat → Nat → Option (List Nat)
  | 0, index => if index = invalidIndex then some [] else none
  | fuel + 1, index =>
    if index = invalidIndex then some []
    else (visits s fuel (s.next index)).map (index :: ·)

end SlotVector

/-! ## 3. Runs -/

/-- A vector, and the object of each live id. -/
structure Slots (T : Type) where
  vector : SlotVector T
  live : Nat → Option T

/-- A call. -/
inductive SlotOp (T : Type) where
  | insert (v : T)
  | erase (id : Nat)

namespace Slots

variable {T : Type}

/-- Before the first call. -/
def start : Slots T := ⟨.empty, fun _ => none⟩

/-- What a call does. -/
def step (s : Slots T) : SlotOp T → Option (Slots T)
  | .insert v => s.vector.insert v |>.map fun r => ⟨r.2, update s.live r.1 (some v)⟩
  | .erase id => some ⟨s.vector.erase id, update s.live id none⟩

/-- The calls that the program makes: only a live id is erased. -/
def Allowed (s : Slots T) (op : SlotOp T) (_ : Slots T) : Prop :=
  ∀ id, op = .erase id → s.live id ≠ none

/-- A run of calls. -/
abbrev Run : Slots T → List (SlotOp T) → Slots T → Prop := PartialRun step id Allowed

/-- **The free list and the stored slots are the slots of the storage.** -/
structure Partition (s : Slots T) : Prop where
  nodup : s.vector.freeList.Nodup
  free : ∀ i, i ∈ s.vector.freeList ↔ i < s.vector.valuesCapacity ∧ s.vector.readStorageBit i = false
  stored : ∀ i, s.vector.readStorageBit i = true → i < s.vector.valuesCapacity

/-- The ids with a stored slot are the live ones, and a live id has its object. -/
structure Holds (s : Slots T) : Prop where
  live_iff : ∀ i, s.live i ≠ none ↔ s.vector.readStorageBit i = true
  get : ∀ i v, s.live i = some v → s.vector.get i = some v

/-- **The iteration is complete**: from `begin()` to `end()` it visits the live ids in increasing
order, and nothing else. -/
def Complete (s : Slots T) : Prop :=
  ∃ fuel ids, s.vector.visits fuel s.vector.beginIndex = some ids ∧ ids.Pairwise (· < ·) ∧
    ∀ i, i ∈ ids ↔ s.live i ≠ none

/-- No id is live; or one of the first 64 is, and the size of the storage is below `2 ^ 32`. -/
def FirstWordLive (s : Slots T) : Prop :=
  (∀ i, s.live i = none) ∨ s.vector.valuesCapacity < 2 ^ 32 ∧ ∃ i < 64, s.live i ≠ none

/-- The invariant. Ids are numbers of 32 bits: a storage with more slots repeats them. -/
structure Inv (s : Slots T) : Prop where
  capacity : s.vector.valuesCapacity = 0 ∨ ∃ k, s.vector.valuesCapacity = 2 ^ k
  words : s.vector.storedBitset.length = (s.vector.valuesCapacity + 63) / 64
  free_lt : ∀ i ∈ s.vector.freeList, i < 2 ^ 32
  stored_lt : ∀ i, s.vector.readStorageBit i = true → i < 2 ^ 32
  live_lt : ∀ i, s.live i ≠ none → i < 2 ^ 32
  good : s.vector.valuesCapacity ≤ 2 ^ 32 → s.Partition ∧ s.Holds

end Slots

/-! ## 4. The storage -/

namespace SlotVector

variable {T : Type} {s : SlotVector T} {i index : Nat}

theorem readStorageBit_of_ge (h : s.storedBitset.length ≤ i / 64) : s.readStorageBit i = false := by
  rw [readStorageBit, getD_eq_default _ _ h]
  exact BitVec.getLsbD_zero

theorem readStorageBit_set_self (hindex : index / 64 < s.storedBitset.length) :
    (s.setStorageBit index).readStorageBit index = true := by
  have hlt : index % 64 < 64 := Nat.mod_lt _ (by decide)
  rw [readStorageBit, setStorageBit, List.getD_eq_getElem?_getD]
  dsimp only
  rw [List.getElem?_modify_eq, List.getElem?_eq_getElem hindex, Option.map_eq_map, Option.map_some,
    Option.getD_some, getLsbD_or_bit, decide_eq_true ⟨rfl, hlt⟩, Bool.or_true]

theorem readStorageBit_set_ne (hi : i ≠ index) :
    (s.setStorageBit index).readStorageBit i = s.readStorageBit i := by
  rw [readStorageBit, readStorageBit, setStorageBit, getD_eq_getElem?_getD, getD_eq_getElem?_getD]
  dsimp only
  by_cases hword : index / 64 = i / 64
  · have hbit : ¬(index % 64 = i % 64 ∧ i % 64 < 64) := fun h => hi (by omega)
    rw [hword, List.getElem?_modify_eq]
    rcases Nat.lt_or_ge (i / 64) s.storedBitset.length with h | h
    · rw [List.getElem?_eq_getElem h, Option.map_eq_map, Option.map_some, Option.getD_some,
        getD_some, getLsbD_or_bit, decide_eq_false hbit, Bool.or_false]
    · rw [List.getElem?_eq_none h, Option.map_eq_map, Option.map_none]
  · rw [List.getElem?_modify_ne _ _ hword]

theorem readStorageBit_reset_self (hindex : index / 64 < s.storedBitset.length) :
    (s.resetStorageBit index).readStorageBit index = false := by
  have hlt : index % 64 < 64 := Nat.mod_lt _ (by decide)
  rw [readStorageBit, resetStorageBit, List.getD_eq_getElem?_getD]
  dsimp only
  rw [List.getElem?_modify_eq, List.getElem?_eq_getElem hindex, Option.map_eq_map, Option.map_some,
    Option.getD_some, getLsbD_and_not_bit, decide_eq_true ⟨rfl, hlt⟩, Bool.not_true, Bool.and_false]

theorem readStorageBit_reset_ne (hi : i ≠ index) :
    (s.resetStorageBit index).readStorageBit i = s.readStorageBit i := by
  rw [readStorageBit, readStorageBit, resetStorageBit, getD_eq_getElem?_getD, getD_eq_getElem?_getD]
  dsimp only
  by_cases hword : index / 64 = i / 64
  · have hbit : ¬(index % 64 = i % 64 ∧ i % 64 < 64) := fun h => hi (by omega)
    rw [hword, List.getElem?_modify_eq]
    rcases Nat.lt_or_ge (i / 64) s.storedBitset.length with h | h
    · rw [List.getElem?_eq_getElem h, Option.map_eq_map, Option.map_some, Option.getD_some,
        getD_some, getLsbD_and_not_bit, decide_eq_false hbit, Bool.not_false, Bool.and_true]
    · rw [List.getElem?_eq_none h, Option.map_eq_map, Option.map_none]
  · rw [List.getElem?_modify_ne _ _ hword]

theorem readStorageBit_reserve {n : Nat} : (s.reserve n).readStorageBit i = s.readStorageBit i := by
  rw [readStorageBit, readStorageBit, reserve]
  dsimp only
  rcases Nat.lt_or_ge (i / 64) s.storedBitset.length with h | h
  · rw [getD_append _ _ _ _ h]
  · rw [getD_append_right _ _ _ _ h, getD_eq_default _ _ h]
    congr 1
    rw [getD_eq_getElem?_getD, List.getElem?_replicate]
    split <;> rfl

end SlotVector

/-! ## 5. The partition -/

namespace Slots

variable {T : Type} {s s' : Slots T} {n i index : Nat}

theorem inv_start : (start : Slots T).Inv where
  capacity := .inl rfl
  words := (by decide : (0 : Nat) = (0 + 63) / 64)
  free_lt i hi := absurd hi not_mem_nil
  stored_lt i hi := absurd hi (by rw [SlotVector.readStorageBit_of_ge (Nat.zero_le _)]; decide)
  live_lt i hi := absurd rfl hi
  good _ :=
    { left :=
        { nodup := nodup_nil
          free i := ⟨fun h => absurd h not_mem_nil, fun h => absurd h.1 (Nat.not_lt_zero _)⟩
          stored i hi := absurd hi (by rw [SlotVector.readStorageBit_of_ge (Nat.zero_le _)]; decide) }
      right :=
        { live_iff i := ⟨fun h => absurd rfl h, fun hi =>
            absurd hi (by rw [SlotVector.readStorageBit_of_ge (Nat.zero_le _)]; decide)⟩
          get i v h := by cases h } }

theorem mem_added {c : Nat} (hn : n ≤ 2 ^ 32) :
    i ∈ ((List.range (n - c)).map fun i => (c + i) % 2 ^ 32) ↔ c ≤ i ∧ i < n := by
  rw [List.mem_map]
  constructor
  · intro ⟨j, hj, e⟩
    rw [List.mem_range] at hj
    rw [Nat.mod_eq_of_lt (by omega)] at e
    omega
  · intro ⟨h1, h2⟩
    refine ⟨i - c, List.mem_range.mpr (by omega), ?_⟩
    rw [Nat.mod_eq_of_lt (by omega)]
    omega

theorem added_nodup {c : Nat} (hn : n ≤ 2 ^ 32) :
    ((List.range (n - c)).map fun i => (c + i) % 2 ^ 32).Nodup := by
  refine List.Nodup.map_on ?_ nodup_range
  intro x hx y hy e
  rw [mem_range] at hx hy
  rw [Nat.mod_eq_of_lt (by omega), Nat.mod_eq_of_lt (by omega)] at e
  omega

/-- A growth. -/
theorem Inv.reserve (h : s.Inv)
    (hn : n = if s.vector.valuesCapacity ≠ 0 then s.vector.valuesCapacity <<< 1 else 1) :
    Inv ⟨s.vector.reserve n, s.live⟩ ∧ (s.vector.reserve n).freeList ≠ [] := by
  have hgrow : s.vector.valuesCapacity < n ∧ ∃ k, n = 2 ^ k := by
    rcases h.capacity with hc | ⟨k, hc⟩
    · rw [if_neg (not_not_intro hc)] at hn
      exact ⟨by omega, 0, hn⟩
    · have hpos : 0 < 2 ^ k := Nat.two_pow_pos k
      rw [if_pos (by omega), Nat.shiftLeft_eq, hc, Nat.pow_one] at hn
      exact ⟨by omega, k + 1, by rw [hn, Nat.pow_succ]⟩
  obtain ⟨hlt, hpower⟩ := hgrow
  refine ⟨?_, ?_⟩
  · refine ⟨.inr hpower, ?_, ?_, ?_, h.live_lt, ?_⟩
    · have hwords := h.words
      simp only [SlotVector.reserve, length_append, length_replicate]
      omega
    · intro i hi
      rcases mem_append.mp hi with hi | hi
      · exact h.free_lt i hi
      · obtain ⟨j, -, e⟩ := mem_map.mp hi
        rw [← e]
        exact Nat.mod_lt _ (by decide)
    · intro i hi
      exact h.stored_lt i (by rwa [SlotVector.readStorageBit_reserve] at hi)
    · intro hle
      have hle : n ≤ 2 ^ 32 := hle
      obtain ⟨hpartition, hholds⟩ := h.good (by omega)
      refine ⟨⟨?_, ?_, ?_⟩, ⟨?_, ?_⟩⟩
      · refine List.Nodup.append hpartition.nodup (added_nodup hle) ?_
        intro i hi hi'
        have := ((hpartition.free i).mp hi).1
        have := ((mem_added hle).mp hi').1
        omega
      · intro i
        rw [SlotVector.readStorageBit_reserve]
        refine mem_append.trans ?_
        rw [hpartition.free, mem_added hle]
        constructor
        · intro hi
          rcases hi with ⟨hi, hbit⟩ | ⟨hi, hin⟩
          · exact ⟨Nat.lt_trans hi hlt, hbit⟩
          · refine ⟨hin, Bool.eq_false_iff.mpr fun hbit => ?_⟩
            have := hpartition.stored i hbit
            omega
        · intro ⟨hi, hbit⟩
          rcases Nat.lt_or_ge i s.vector.valuesCapacity with hc | hc
          · exact .inl ⟨hc, hbit⟩
          · exact .inr ⟨hc, hi⟩
      · intro i hi
        rw [SlotVector.readStorageBit_reserve] at hi
        exact Nat.lt_trans (hpartition.stored i hi) hlt
      · intro i
        rw [SlotVector.readStorageBit_reserve]
        exact hholds.live_iff i
      · intro i v hv
        have hbit := (hholds.live_iff i).mp (by rw [hv]; exact some_ne_none v)
        refine Eq.trans ?_ (hholds.get i v hv)
        exact if_pos hbit
  · intro hnil
    have := congrArg List.length hnil
    simp only [SlotVector.reserve, length_append, length_map, length_range, length_nil] at this
    omega

/-- An object in a free slot. -/
theorem Inv.place {fs : List Nat} {v : T} (h : s.Inv) (hfree : s.vector.freeList = fs ++ [index]) :
    Inv ⟨({ s.vector with
      freeList := fs
      values := update s.vector.values index (some v) } : SlotVector T).setStorageBit index,
      update s.live index (some v)⟩ := by
  have hmem : index ∈ s.vector.freeList := by
    rw [hfree]
    exact mem_concat_self
  have hbit : ∀ i, i ≠ index → SlotVector.readStorageBit (({ s.vector with
      freeList := fs
      values := update s.vector.values index (some v) } : SlotVector T).setStorageBit index) i =
        s.vector.readStorageBit i := fun i hi => SlotVector.readStorageBit_set_ne hi
  refine ⟨h.capacity, ?_, ?_, ?_, ?_, ?_⟩
  · exact (length_modify _ _ _).trans h.words
  · intro i hi
    exact h.free_lt i (by rw [hfree]; exact mem_append_left _ hi)
  · intro i hi
    by_cases e : i = index
    · rw [e]
      exact h.free_lt index hmem
    · exact h.stored_lt i (by rwa [hbit i e] at hi)
  · intro i hi
    by_cases e : i = index
    · rw [e]
      exact h.free_lt index hmem
    · dsimp only at hi
      rw [update_of_ne e] at hi
      exact h.live_lt i hi
  · intro hle
    obtain ⟨hpartition, hholds⟩ := h.good hle
    have hself : SlotVector.readStorageBit (({ s.vector with
        freeList := fs
        values := update s.vector.values index (some v) } : SlotVector T).setStorageBit index) index =
          true := by
      refine SlotVector.readStorageBit_set_self ?_
      have hwords := h.words
      have := ((hpartition.free index).mp hmem).1
      dsimp only
      omega
    have hnodup := hpartition.nodup
    rw [hfree, nodup_append] at hnodup
    have hnot : index ∉ fs := fun hin => hnodup.2.2 index hin index (mem_singleton_self _) rfl
    refine ⟨⟨hnodup.1, ?_, ?_⟩, ⟨?_, ?_⟩⟩
    · intro i
      by_cases e : i = index
      · rw [e, hself]
        exact ⟨fun hin => absurd hin hnot, fun hin => absurd hin.2 (by decide)⟩
      · rw [hbit i e]
        refine Iff.trans ?_ (hpartition.free i)
        rw [hfree, mem_append, mem_singleton]
        exact ⟨.inl, fun hin => hin.resolve_right e⟩
    · intro i hi
      by_cases e : i = index
      · rw [e]
        exact ((hpartition.free index).mp hmem).1
      · exact hpartition.stored i (by rwa [hbit i e] at hi)
    · intro i
      by_cases e : i = index
      · rw [e, hself]
        dsimp only
        rw [update_self]
        exact ⟨fun _ => rfl, fun _ => some_ne_none v⟩
      · rw [hbit i e]
        dsimp only
        rw [update_of_ne e]
        exact hholds.live_iff i
    · intro i w hw
      dsimp only at hw
      by_cases e : i = index
      · rw [e, update_self] at hw
        rw [← hw, e]
        exact update_self ..
      · rw [update_of_ne e] at hw
        refine Eq.trans ?_ (hholds.get i w hw)
        exact update_of_ne e _ _

theorem Inv.insert {v : T} (h : s.Inv) : ∃ s', step s (.insert v) = some s' ∧ s'.Inv := by
  have hplace : ∀ {u : SlotVector T}, Inv ⟨u, s.live⟩ → u.freeList ≠ [] →
      ∃ index, u.freeList.getLast? = some index ∧ Inv ⟨({ u with
        freeList := u.freeList.dropLast
        values := update u.values index (some v) } : SlotVector T).setStorageBit index,
        update s.live index (some v)⟩ := by
    intro u hu hne
    refine ⟨u.freeList.getLast hne, List.getLast?_eq_some_getLast hne, ?_⟩
    exact hu.place (s := ⟨u, s.live⟩) (dropLast_append_getLast hne).symm
  by_cases hempty : s.vector.freeList.isEmpty = true
  · obtain ⟨hres, hne⟩ := h.reserve rfl
    obtain ⟨index, hlast, hinv⟩ := hplace hres hne
    refine ⟨_, ?_, hinv⟩
    rw [step, SlotVector.insert, SlotVector.freeValueIndex, if_pos hempty]
    dsimp only
    rw [hlast]
    rfl
  · have hne : s.vector.freeList ≠ [] := fun e => hempty (by rw [e]; rfl)
    obtain ⟨index, hlast, hinv⟩ := hplace h hne
    refine ⟨_, ?_, hinv⟩
    rw [step, SlotVector.insert, SlotVector.freeValueIndex, if_neg hempty]
    dsimp only
    rw [hlast]
    rfl

/-- `erase` of a live id keeps the invariant. -/
theorem Inv.erase (h : s.Inv) (hlive : s.live index ≠ none) :
    Inv ⟨s.vector.erase index, update s.live index none⟩ := by
  have hbit : ∀ i, i ≠ index → (s.vector.erase index).readStorageBit i = s.vector.readStorageBit i :=
    fun i hi => SlotVector.readStorageBit_reset_ne hi
  refine ⟨h.capacity, ?_, ?_, ?_, ?_, ?_⟩
  · exact (length_modify _ _ _).trans h.words
  · intro i hi
    rcases mem_append.mp hi with hi | hi
    · exact h.free_lt i hi
    · rw [mem_singleton.mp hi]
      exact h.live_lt index hlive
  · intro i hi
    by_cases e : i = index
    · rw [e]
      exact h.live_lt index hlive
    · exact h.stored_lt i (by rwa [hbit i e] at hi)
  · intro i hi
    by_cases e : i = index
    · rw [e]
      exact h.live_lt index hlive
    · dsimp only at hi
      rw [update_of_ne e] at hi
      exact h.live_lt i hi
  · intro hle
    obtain ⟨hpartition, hholds⟩ := h.good hle
    have hstored := (hholds.live_iff index).mp hlive
    have hlt := hpartition.stored index hstored
    have hself : (s.vector.erase index).readStorageBit index = false := by
      refine SlotVector.readStorageBit_reset_self ?_
      have hwords := h.words
      dsimp only
      omega
    have hnot : index ∉ s.vector.freeList := by
      intro hin
      have := ((hpartition.free index).mp hin).2
      rw [hstored] at this
      cases this
    refine ⟨⟨?_, ?_, ?_⟩, ⟨?_, ?_⟩⟩
    · refine List.Nodup.append hpartition.nodup (nodup_singleton _) ?_
      intro i hi hi'
      rw [mem_singleton.mp hi'] at hi
      exact hnot hi
    · intro i
      refine mem_append.trans ?_
      by_cases e : i = index
      · rw [e, hself]
        exact ⟨fun _ => ⟨hlt, rfl⟩, fun _ => .inr (mem_singleton_self _)⟩
      · rw [hbit i e]
        refine Iff.trans ?_ (hpartition.free i)
        rw [mem_singleton]
        exact ⟨fun hin => hin.resolve_right e, .inl⟩
    · intro i hi
      by_cases e : i = index
      · rw [e]
        exact hlt
      · exact hpartition.stored i (by rwa [hbit i e] at hi)
    · intro i
      by_cases e : i = index
      · rw [e, hself]
        dsimp only
        rw [update_self]
        exact ⟨fun hn => absurd rfl hn, fun hn => by cases hn⟩
      · rw [hbit i e]
        dsimp only
        rw [update_of_ne e]
        exact hholds.live_iff i
    · intro i w hw
      dsimp only at hw
      by_cases e : i = index
      · rw [e, update_self] at hw
        cases hw
      · rw [update_of_ne e] at hw
        refine Eq.trans ?_ (hholds.get i w hw)
        exact update_of_ne e _ _

theorem step_inv {op : SlotOp T} (h : s.Inv) (hstep : step s op = some s')
    (hallowed : s.Allowed op s') : s'.Inv := by
  cases op with
  | insert v =>
    obtain ⟨t, ht, hinv⟩ := h.insert (v := v)
    rw [ht] at hstep
    cases hstep
    exact hinv
  | erase index =>
    cases hstep
    exact h.erase (hallowed index rfl)

theorem run_inv {ops : List (SlotOp T)} (hrun : Run start ops s) : s.Inv :=
  PartialRun.invariant Inv (fun _ _ _ h hstep hallowed => step_inv h hstep hallowed) hrun inv_start

end Slots

/-! ## 6. The iteration -/

namespace SlotVector

variable {T : Type} {s : SlotVector T} {n i index : Nat}

theorem scan_spec (s : SlotVector T) (n i : Nat) : i ≤ s.scan n i ∧ s.scan n i ≤ i + n ∧
      (∀ k, i ≤ k → k < s.scan n i → s.readStorageBit k = false) ∧
      (s.scan n i < i + n → s.readStorageBit (s.scan n i) = true) := by
  induction n generalizing i with
  | zero =>
    rw [scan]
    exact ⟨Nat.le_refl i, Nat.le_refl i, fun k h1 h2 => absurd h2 (Nat.not_lt.mpr h1),
      fun h => absurd h (Nat.lt_irrefl i)⟩
  | succ n ih =>
    rw [scan]
    split
    · rename_i hbit
      exact ⟨Nat.le_refl i, Nat.le_add_right i _, fun k h1 h2 => absurd h2 (Nat.not_lt.mpr h1),
        fun _ => hbit⟩
    · rename_i hbit
      obtain ⟨h1, h2, hclear, hset⟩ := ih (i + 1)
      refine ⟨by omega, by omega, fun k hk hk' => ?_, fun h => hset (by omega)⟩
      rcases Nat.eq_or_lt_of_le hk with rfl | hlt
      · exact Bool.eq_false_iff.mpr hbit
      · exact hclear k hlt hk'

theorem visits_end (fuel : Nat) : s.visits fuel invalidIndex = some [] := by
  cases fuel with
  | zero => exact if_pos rfl
  | succ fuel => exact if_pos rfl

theorem visits_stuck (hsize : s.iteratorSize ≤ index) (hne : index ≠ invalidIndex) (fuel : Nat) :
    s.visits fuel index = none := by
  induction fuel with
  | zero => exact if_neg hne
  | succ fuel ih => rw [visits, if_neg hne, next, if_neg (Nat.not_lt.mpr hsize), ih, map_none]

/-- **From a stored slot the iteration visits the stored slots behind it**, by induction on what is left
of the storage. -/
theorem visits_from (hsize : s.iteratorSize ≤ invalidIndex)
    (hstored : ∀ i, s.readStorageBit i = true → i < s.iteratorSize) {left : Nat}
    (hleft : s.iteratorSize - index = left) (hbit : s.readStorageBit index = true) :
    ∃ fuel ids, s.visits fuel index = some ids ∧ ids.Pairwise (· < ·) ∧
      ∀ i, i ∈ ids ↔ index ≤ i ∧ s.readStorageBit i = true := by
  induction left using Nat.strongRecOn generalizing index with
  | ind left ih =>
    have hlt := hstored index hbit
    have hne : index ≠ invalidIndex := by omega
    obtain ⟨hlo, hhi, hclear, hset⟩ := s.scan_spec (s.iteratorSize - (index + 1)) (index + 1)
    have hnext : s.next index = if s.scan (s.iteratorSize - (index + 1)) (index + 1) = s.iteratorSize
        then invalidIndex else s.scan (s.iteratorSize - (index + 1)) (index + 1) := if_pos hlt
    generalize s.scan (s.iteratorSize - (index + 1)) (index + 1) = j at *
    by_cases hend : j = s.iteratorSize
    · rw [if_pos hend] at hnext
      refine ⟨1, [index], ?_, pairwise_singleton _ _, fun i => ?_⟩
      · rw [visits, if_neg hne, hnext, visits_end, map_some]
      · rw [mem_singleton]
        constructor
        · intro e
          rw [e]
          exact ⟨Nat.le_refl _, hbit⟩
        · intro ⟨hi, hb⟩
          by_contra hn
          have := hstored i hb
          rw [hclear i (by omega) (by omega)] at hb
          cases hb
    · rw [if_neg hend] at hnext
      obtain ⟨fuel, ids, hvisits, hsorted, hmem⟩ :=
        ih (s.iteratorSize - j) (by omega) rfl (hset (by omega))
      refine ⟨fuel + 1, index :: ids, ?_, ?_, fun i => ?_⟩
      · rw [visits, if_neg hne, hnext, hvisits, map_some]
      · refine pairwise_cons.mpr ⟨fun i hi => ?_, hsorted⟩
        have := ((hmem i).mp hi).1
        omega
      · rw [mem_cons, hmem]
        constructor
        · intro h
          rcases h with e | ⟨hi, hb⟩
          · rw [e]
            exact ⟨Nat.le_refl _, hbit⟩
          · exact ⟨by omega, hb⟩
        · intro ⟨hi, hb⟩
          rcases Nat.eq_or_lt_of_le hi with e | hlt
          · exact .inl e.symm
          · refine .inr ⟨?_, hb⟩
            by_contra hn
            rw [hclear i hlt (by omega)] at hb
            cases hb

theorem beginIndex_none (h : s.storedBitset.findIdx? (· ≠ 0) = none) :
    s.beginIndex = invalidIndex ∧ ∀ i, s.readStorageBit i = false := by
  refine ⟨by rw [beginIndex, h], fun i => ?_⟩
  rcases Nat.lt_or_ge (i / 64) s.storedBitset.length with hi | hi
  · have hword := List.findIdx?_eq_none_iff.mp h _ (getElem_mem hi)
    rw [decide_eq_false_iff_not, not_not] at hword
    rw [readStorageBit, getD_eq_getElem _ _ hi, hword]
    exact BitVec.getLsbD_zero
  · exact readStorageBit_of_ge hi

/-- **Where `begin` starts**, with the first word that has a bit. -/
theorem beginIndex_some {w : Nat} (h : s.storedBitset.findIdx? (· ≠ 0) = some w)
    (hlength : s.storedBitset.length ≤ 2 ^ 26) :
    w < s.storedBitset.length ∧ ∃ bit < 64, s.readStorageBit (w * 64 + bit) = true ∧
      (∀ i < w * 64 + bit, s.readStorageBit i = false) ∧
      s.beginIndex = if w = 0 then bit else 2 ^ 32 - w * 64 + bit := by
  obtain ⟨hw, hword, hfirst⟩ := List.findIdx?_eq_some_iff_getElem.mp h
  rw [decide_eq_true_iff] at hword
  have hget : s.storedBitset.getD w 0 = s.storedBitset[w] := getD_eq_getElem _ _ hw
  obtain ⟨hclear, hset⟩ := countrZero_bits s.storedBitset[w]
  obtain ⟨hlt, hbit⟩ := hset hword
  refine ⟨hw, countrZero 64 s.storedBitset[w].toNat, hlt, ?_, fun i hi => ?_, ?_⟩
  · rw [readStorageBit, show (w * 64 + countrZero 64 s.storedBitset[w].toNat) / 64 = w by omega,
      show (w * 64 + countrZero 64 s.storedBitset[w].toNat) % 64 =
        countrZero 64 s.storedBitset[w].toNat by omega, hget]
    exact hbit
  · rcases Nat.lt_or_ge (i / 64) w with hi' | hi'
    · have hzero := hfirst (i / 64) hi'
      rw [decide_eq_true_iff, not_not] at hzero
      rw [readStorageBit, getD_eq_getElem _ _ (Nat.lt_trans hi' hw), hzero]
      exact BitVec.getLsbD_zero
    · have e : i / 64 = w := by omega
      rw [readStorageBit, e, hget]
      exact hclear _ (by omega)
  · rw [beginIndex, h]
    dsimp only
    rw [hget]
    generalize countrZero 64 s.storedBitset[w].toNat = bit at *
    split
    · rename_i hw0
      rw [hw0]
      omega
    · omega

end SlotVector

namespace Slots

variable {T : Type} {s : Slots T}

theorem Inv.capacity_le (h : s.Inv) (hlt : s.vector.valuesCapacity < 2 ^ 32) :
    s.vector.valuesCapacity ≤ 2 ^ 31 := by
  rcases h.capacity with hc | ⟨k, hc⟩
  · omega
  · rw [hc] at hlt ⊢
    exact Nat.pow_le_pow_right (by decide) (Nat.le_of_lt_succ ((Nat.pow_lt_pow_iff_right (by decide)).mp hlt))

theorem not_complete {i : Nat} (hsize : s.vector.iteratorSize ≤ s.vector.beginIndex)
    (hlive : s.live i ≠ none) : ¬s.Complete := by
  intro ⟨fuel, ids, hvisits, _, hmem⟩
  by_cases hend : s.vector.beginIndex = SlotVector.invalidIndex
  · rw [hend, SlotVector.visits_end] at hvisits
    obtain rfl := some.inj hvisits
    exact not_mem_nil ((hmem i).mpr hlive)
  · rw [SlotVector.visits_stuck hsize hend] at hvisits
    cases hvisits

/-- **When the iteration is complete.** -/
theorem Inv.complete_iff (h : s.Inv) (hle : s.vector.valuesCapacity ≤ 2 ^ 32) :
    s.Complete ↔ s.FirstWordLive := by
  obtain ⟨hpartition, hholds⟩ := h.good hle
  have hwords := h.words
  cases hfind : s.vector.storedBitset.findIdx? (· ≠ 0) with
  | none =>
    obtain ⟨hbegin, hclear⟩ := SlotVector.beginIndex_none hfind
    have hdead : ∀ i, s.live i = none := by
      intro i
      by_contra hn
      have hbit := (hholds.live_iff i).mp hn
      rw [hclear i] at hbit
      cases hbit
    refine iff_of_true ⟨0, [], ?_, .nil, fun i => ?_⟩ (.inl hdead)
    · rw [hbegin, SlotVector.visits_end]
    · exact ⟨fun hi => absurd hi not_mem_nil, fun hi => absurd (hdead i) hi⟩
  | some w =>
    obtain ⟨hw, bit, hlt, hbit, hclear, hbegin⟩ := SlotVector.beginIndex_some hfind (by omega)
    have hlive := (hholds.live_iff _).mpr hbit
    by_cases hgood : w = 0 ∧ s.vector.valuesCapacity < 2 ^ 32
    · obtain ⟨rfl, hcapacity⟩ := hgood
      have hhalf := h.capacity_le hcapacity
      rw [Nat.zero_mul, Nat.zero_add] at hbit hclear hlive
      rw [if_pos rfl] at hbegin
      refine iff_of_true ?_ (.inr ⟨hcapacity, bit, hlt, hlive⟩)
      have hsize : s.vector.iteratorSize = s.vector.storedBitset.length * 64 := by
        rw [SlotVector.iteratorSize]
        omega
      obtain ⟨fuel, ids, hvisits, hsorted, hmem⟩ := SlotVector.visits_from (s := s.vector)
        (by rw [hsize, SlotVector.invalidIndex]; omega)
        (fun i hi => by
          have := hpartition.stored i hi
          omega) rfl hbit
      refine ⟨fuel, ids, by rw [hbegin, hvisits], hsorted, fun i => ?_⟩
      rw [hmem, hholds.live_iff]
      refine and_iff_right_of_imp fun hi => ?_
      by_contra hn
      rw [hclear i (by omega)] at hi
      cases hi
    · refine iff_of_false (not_complete ?_ hlive) ?_
      · rcases Nat.lt_or_ge s.vector.valuesCapacity (2 ^ 32) with hc | hc
        · -- the first word with a bit is not the first one: `begin` lies behind every slot
          have hhalf := h.capacity_le hc
          have hw0 : w ≠ 0 := fun e => hgood ⟨e, hc⟩
          rw [hbegin, if_neg hw0, SlotVector.iteratorSize]
          omega
        · -- the size that `operator++` compares with is 0
          have hlength : s.vector.storedBitset.length = 2 ^ 26 := by omega
          rw [SlotVector.iteratorSize, hlength]
          exact Nat.zero_le _
      · intro hfirst
        rcases hfirst with hdead | ⟨hc, i, hi, hlive'⟩
        · exact hlive (hdead _)
        · have hw0 : w ≠ 0 := fun e => hgood ⟨e, hc⟩
          have hbit' := (hholds.live_iff i).mp hlive'
          rw [hclear i (by omega)] at hbit'
          cases hbit'

/-- **When the free list, the stored slots, the objects and the iteration are right**: after any run, if
ids are enough for the storage, and `begin` finds its first id in the first word or there is none. -/
theorem slots_right_iff {ops : List (SlotOp T)} (hrun : Run start ops s) :
    (s.Partition ∧ s.Holds ∧ s.Complete) ↔ s.vector.valuesCapacity ≤ 2 ^ 32 ∧ s.FirstWordLive := by
  have h := run_inv hrun
  constructor
  · intro ⟨hpartition, hholds, hcomplete⟩
    have hle : s.vector.valuesCapacity ≤ 2 ^ 32 := by
      by_contra hgt
      have hfar : s.vector.readStorageBit (2 ^ 32) = false :=
        Bool.eq_false_iff.mpr fun hbit => absurd (h.stored_lt _ hbit) (Nat.lt_irrefl _)
      have hfree := (hpartition.free (2 ^ 32)).mpr ⟨Nat.lt_of_not_le hgt, hfar⟩
      exact absurd (h.free_lt _ hfree) (Nat.lt_irrefl _)
    exact ⟨hle, (h.complete_iff hle).mp hcomplete⟩
  · intro ⟨hle, hfirst⟩
    obtain ⟨hpartition, hholds⟩ := h.good hle
    exact ⟨hpartition, hholds, (h.complete_iff hle).mpr hfirst⟩

/-! ## 7. Runs that are computed -/

/-- The state after the calls, if only live ids are erased. -/
def runOps (s : Slots T) : List (SlotOp T) → Option (Slots T)
  | [] => some s
  | .insert v :: ops => (s.step (.insert v)).bind fun s' => runOps s' ops
  | .erase id :: ops =>
    if (s.live id).isSome then (s.step (.erase id)).bind fun s' => runOps s' ops else none

theorem run_of_runOps {s' : Slots T} {ops : List (SlotOp T)} (h : s.runOps ops = some s') :
    Run s ops s' := by
  induction ops generalizing s with
  | nil =>
    obtain rfl := some.inj h
    exact .nil s
  | cons op ops ih =>
    cases op with
    | insert v =>
      obtain ⟨t, hstep, hrest⟩ := bind_eq_some_iff.mp h
      exact .cons hstep (fun id e => by cases e) (ih hrest)
    | erase id =>
      rw [runOps] at h
      split at h
      · rename_i hlive
        obtain ⟨t, hstep, hrest⟩ := bind_eq_some_iff.mp h
        refine .cons hstep (fun id' e => ?_) (ih hrest)
        obtain rfl := SlotOp.erase.inj e
        intro hnone
        rw [hnone] at hlive
        cases hlive
      · cases h

theorem slots_right_iff_two : ∃ s : Slots Nat, Run start [.insert 5, .insert 7, .erase 0] s ∧
    ((s.Partition ∧ s.Holds ∧ s.Complete) ↔ s.vector.valuesCapacity ≤ 2 ^ 32 ∧ s.FirstWordLive) := by
  have hrun : Run (start : Slots Nat) [.insert 5, .insert 7, .erase 0] _ := run_of_runOps rfl
  exact ⟨_, hrun, slots_right_iff hrun⟩

/-- 65 objects, of which the last one stays. -/
def lastOfMany : List (SlotOp Nat) :=
  (List.range 65).map .insert ++ (List.range 64).map .erase

/-- The last of 65 objects has the id 127. When the others are gone, `begin` gives `INVALID_INDEX`: the
iteration ends before it has visited the object. -/
theorem iteration_misses_second_word : ∃ s : Slots Nat, Run start lastOfMany s ∧ s.live 127 = some 64 ∧
    s.vector.beginIndex = SlotVector.invalidIndex ∧ ¬(s.Partition ∧ s.Holds ∧ s.Complete) := by
  have heval : ((start : Slots Nat).runOps lastOfMany).map
      (fun s => (s.live 127, s.vector.beginIndex, s.vector.iteratorSize)) =
        some (some 64, SlotVector.invalidIndex, 128) := by decide +kernel
  obtain ⟨s, hs, e⟩ := map_eq_some_iff.mp heval
  simp only [Prod.mk.injEq] at e
  obtain ⟨hlive, hbegin, hsize⟩ := e
  refine ⟨s, run_of_runOps hs, hlive, hbegin, fun h => ?_⟩
  exact not_complete (by rw [hsize, hbegin]; decide) (by rw [hlive]; exact some_ne_none 64) h.2.2

end Slots

end Yuzu.Common
