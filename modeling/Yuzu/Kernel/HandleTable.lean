/-
  File:      Yuzu/Kernel/HandleTable.lean
  Subject:   KHandleTable (k_handle_table.h, k_handle_table.cpp): handles of kernel objects.

  An entry holds 16 bits: the linear id of the handle while it has an object, the index of the next
  free entry while it is free. A handle packs the index and the linear id of its entry. Opening and
  closing references to the objects is left out.

  Beside the table, a run keeps a record of the handles it issued, each with the number of linear
  ids allocated before it (`Issue`). Ids wrap, these numbers do not.

  * `TableInv` -- the free list, the entries and the record fit together;
  * `TableOp.run_step` -- every operation keeps it;
  * `TableOp.run_maps` -- so the table is a partial map from handles to objects.
-/
import Mathlib.Data.List.Perm.Subperm
import Yuzu.Lib.Assert
import Yuzu.Lib.Linked
import Yuzu.Kernel.Results
import Mathlib.Algebra.Order.Ring.Int

namespace Yuzu.Kernel

/-! ## 1. Handles -/

/-- `Handle`. -/
abbrev Handle := BitVec 32

namespace Handle

/-- `HandlePack::index`, bits 0 to 14. -/
def index (h : Handle) : Nat := h.toNat % 2 ^ 15

/-- `HandlePack::linear_id`, bits 15 to 29. -/
def linearId (h : Handle) : Nat := h.toNat / 2 ^ 15 % 2 ^ 15

/-- `HandlePack::reserved`, bits 30 and 31. -/
def reserved (h : Handle) : Nat := h.toNat / 2 ^ 30

/-- `Svc::IsPseudoHandle`. -/
def isPseudoHandle (h : Handle) : Bool := h == 0xFFFF8000#32 || h == 0xFFFF8001#32

end Handle

def encodeHandle (index linearId : Nat) : Handle :=
  BitVec.ofNat 32 (index % 2 ^ 15 + linearId % 2 ^ 15 * 2 ^ 15)

variable {i id : Nat}

theorem encodeHandle_index (hi : i < 2 ^ 15) : Handle.index (encodeHandle i id) = i := by
  rw [Handle.index, encodeHandle, BitVec.toNat_ofNat]
  omega

theorem encodeHandle_linearId (hid : id < 2 ^ 15) : Handle.linearId (encodeHandle i id) = id := by
  rw [Handle.linearId, encodeHandle, BitVec.toNat_ofNat]
  omega

theorem encodeHandle_reserved : Handle.reserved (encodeHandle i id) = 0 := by
  rw [Handle.reserved, encodeHandle, BitVec.toNat_ofNat]
  omega

theorem eq_encodeHandle {h : Handle} (hr : h.reserved = 0) : h = encodeHandle h.index h.linearId := by
  have := h.isLt
  rw [Handle.reserved] at hr
  rw [← BitVec.toNat_inj, encodeHandle, BitVec.toNat_ofNat, Handle.index, Handle.linearId]
  omega

/-! ## 2. The table -/

def minLinearId : Nat := 1

def maxLinearId : Nat := 0x7FFF

def maxTableSize : Nat := 1024

/-- `KHandleTable`. -/
structure KHandleTable (α : Type) where
  entryInfos : Nat → BitVec 16
  objects : Nat → Option α
  freeHeadIndex : Int
  tableSize : Nat
  maxCount : Nat
  nextLinearId : Nat
  count : Nat

namespace KHandleTable

variable {α : Type}

def setEntryInfo (t : KHandleTable α) (index : Nat) (e : BitVec 16) : KHandleTable α :=
  { t with entryInfos := fun i => if i = index then e else t.entryInfos i }

def setObject (t : KHandleTable α) (index : Nat) (obj : Option α) : KHandleTable α :=
  { t with objects := fun i => if i = index then obj else t.objects i }

/-- The loop of `Initialize` over the entries, `n` of them to go. -/
def initializeEntries : Nat → Nat → KHandleTable α → KHandleTable α
  | 0, _, t => t
  | n + 1, i, t =>
    initializeEntries n (i + 1)
      { (t.setObject i none).setEntryInfo i (BitVec.ofInt 16 ((i : Int) - 1)) with
        freeHeadIndex := i }

/-- `Initialize`. -/
def initializeTable (t : KHandleTable α) (size : Int) : Result × KHandleTable α :=
  if size ≤ maxTableSize then
    let tableSize := if size ≤ 0 then maxTableSize else size.toNat
    (.success, initializeEntries tableSize 0 { t with
      maxCount := 0
      tableSize := tableSize
      nextLinearId := minLinearId
      count := 0
      freeHeadIndex := -1 })
  else (.outOfMemory, t)

/-- `AllocateEntry`; without a free entry its index -1 is outside the array. -/
def allocateEntry (t : KHandleTable α) : Option (Nat × KHandleTable α) := do
  assert (t.count < t.tableSize)
  assert (0 ≤ t.freeHeadIndex)
  let index := t.freeHeadIndex.toNat
  return (index, { t with
    freeHeadIndex := (t.entryInfos index).toInt
    maxCount := max t.maxCount (t.count + 1)
    count := t.count + 1 })

def freeEntry (t : KHandleTable α) (index : Nat) : Option (KHandleTable α) := do
  assert (t.count > 0)
  return { (t.setObject index none).setEntryInfo index (BitVec.ofInt 16 t.freeHeadIndex) with
    freeHeadIndex := index
    count := t.count - 1 }

def allocateLinearId (t : KHandleTable α) : Nat × KHandleTable α :=
  let next := t.nextLinearId + 1
  (t.nextLinearId, { t with nextLinearId := if next > maxLinearId then minLinearId else next })

def isValidHandle (t : KHandleTable α) (handle : Handle) : Bool :=
  if handle = 0 then false
  else if handle.linearId = 0 then false
  else if handle.index ≥ t.tableSize then false
  else if (t.objects handle.index).isNone then false
  else (t.entryInfos handle.index).toNat == handle.linearId

/-- `GetObjectImpl`, which every lookup that is not of a pseudo-handle comes down to. -/
def getObjectImpl (t : KHandleTable α) (handle : Handle) : Option α :=
  if handle.reserved ≠ 0 then none
  else if t.isValidHandle handle then t.objects handle.index else none

def remove (t : KHandleTable α) (handle : Handle) : Option (Bool × KHandleTable α) :=
  if handle.isPseudoHandle then some (false, t)
  else if handle.reserved ≠ 0 then some (false, t)
  else if t.isValidHandle handle then do
    let t ← t.freeEntry handle.index
    return (true, t)
  else some (false, t)

/-- `Add`, with the inner `none` for ResultOutOfHandles. -/
def add (t : KHandleTable α) (obj : α) : Option (Option Handle × KHandleTable α) :=
  if t.count < t.tableSize then do
    let (linearId, t) := t.allocateLinearId
    let (index, t) ← t.allocateEntry
    let t := (t.setEntryInfo index (BitVec.ofNat 16 linearId)).setObject index (some obj)
    return (some (encodeHandle index linearId), t)
  else some (none, t)

/-- `Reserve`, with the inner `none` for ResultOutOfHandles. -/
def reserve (t : KHandleTable α) : Option (Option Handle × KHandleTable α) :=
  if t.count < t.tableSize then do
    let (index, t) ← t.allocateEntry
    let (linearId, t) := t.allocateLinearId
    return (some (encodeHandle index linearId), t)
  else some (none, t)

def unreserve (t : KHandleTable α) (handle : Handle) : Option (KHandleTable α) := do
  assert (handle.reserved = 0)
  assert (handle.linearId ≠ 0)
  if handle.index < t.tableSize then do
    assert ((t.objects handle.index).isNone = true)
    t.freeEntry handle.index
  else some t

def register (t : KHandleTable α) (handle : Handle) (obj : α) : Option (KHandleTable α) := do
  assert (handle.reserved = 0)
  assert (handle.linearId ≠ 0)
  if handle.index < t.tableSize then do
    assert ((t.objects handle.index).isNone = true)
    return (t.setEntryInfo handle.index (BitVec.ofNat 16 handle.linearId)).setObject handle.index (some obj)
  else some t

/-! ## 3. The free list -/

/-- An index of the array, or none for a negative one. -/
def toIndex (k : Int) : Option Nat := if k < 0 then none else some k.toNat

/-- The entry that follows in the free list. -/
def nextFree (t : KHandleTable α) (i : Nat) : Option Nat := toIndex (t.entryInfos i).toInt

/-- The free list of the table. -/
def FreeList (t : KHandleTable α) (L : List Nat) : Prop :=
  Linked t.nextFree (toIndex t.freeHeadIndex) L

/-- The entries of the free list are free, and the count is that of the others. -/
structure FreeOk (t : KHandleTable α) (L : List Nat) : Prop where
  size_le : t.tableSize ≤ maxTableSize
  freeList : t.FreeList L
  nodup : L.Nodup
  lt : ∀ i ∈ L, i < t.tableSize
  free : ∀ i ∈ L, t.objects i = none
  length : t.count + L.length = t.tableSize
  head_range : -2 ^ 15 ≤ t.freeHeadIndex ∧ t.freeHeadIndex < 2 ^ 15

/-- Only the entry `i` differs. -/
structure SameElse (i : Nat) (t t' : KHandleTable α) : Prop where
  size : t'.tableSize = t.tableSize
  objects : ∀ j, j ≠ i → t'.objects j = t.objects j
  entryInfos : ∀ j, j ≠ i → t'.entryInfos j = t.entryInfos j

variable {t t' : KHandleTable α} {L : List Nat}

theorem toIndex_ofInt {k : Int} (h : -2 ^ 15 ≤ k ∧ k < 2 ^ 15) :
    toIndex (BitVec.ofInt 16 k).toInt = toIndex k := by
  rw [BitVec.toInt_ofInt_eq_self (by decide) h.1 h.2]

theorem FreeOk.count_eq (h : t.FreeOk L) : L.length = t.tableSize - t.count := by
  have := h.length
  omega

theorem FreeOk.count_lt {i : Nat} (h : t.FreeOk (i :: L)) : t.count < t.tableSize := by
  have := h.length
  rw [List.length_cons] at this
  omega

theorem FreeOk.count_eq_of_full (h : t.FreeOk L) (hc : ¬t.count < t.tableSize) : t.count = t.tableSize := by
  have := h.length
  omega

theorem FreeOk.count_pos (h : t.FreeOk L) {i : Nat} (hi : i < t.tableSize) (hL : i ∉ L) : 0 < t.count := by
  have hnodup : (i :: L).Nodup := List.nodup_cons.mpr ⟨hL, h.nodup⟩
  have hsub : (i :: L) ⊆ List.range t.tableSize := fun j hj => by
    rw [List.mem_range]
    rcases List.mem_cons.mp hj with rfl | hj
    · exact hi
    · exact h.lt j hj
  have hlen := (hnodup.subperm hsub).length_le
  rw [List.length_cons, List.length_range] at hlen
  have := h.length
  omega

theorem FreeOk.write (h : t.FreeOk L) {i : Nat} (hL : i ∉ L) (e : BitVec 16) (obj : Option α) :
    ((t.setEntryInfo i e).setObject i obj).FreeOk L := by
  have hne : ∀ j ∈ L, j ≠ i := fun j hj he => hL (he ▸ hj)
  refine ⟨h.size_le, ?_, h.nodup, h.lt, fun j hj => ?_, h.length, h.head_range⟩
  · refine h.freeList.congr fun j hj => ?_
    simp only [nextFree, setEntryInfo, setObject, if_neg (hne j hj)]
  · simp only [setEntryInfo, setObject, if_neg (hne j hj)]
    exact h.free j hj

theorem sameElse_write (i : Nat) (e : BitVec 16) (obj : Option α) :
    SameElse i t ((t.setEntryInfo i e).setObject i obj) :=
  ⟨rfl, fun _ hj => if_neg hj, fun _ hj => if_neg hj⟩

/-- **AllocateEntry** takes the first entry of the free list. -/
theorem FreeOk.allocateEntry (h : t.FreeOk L) (hc : t.count < t.tableSize) :
    ∃ i L' t', L = i :: L' ∧ t.allocateEntry = some (i, t') ∧ t'.FreeOk L' ∧
      t'.objects = t.objects ∧ t'.entryInfos = t.entryInfos ∧ t'.tableSize = t.tableSize ∧
      t'.nextLinearId = t.nextLinearId := by
  have hhead : ∃ i, toIndex t.freeHeadIndex = some i := by
    cases hp : toIndex t.freeHeadIndex with
    | some i => exact ⟨i, rfl⟩
    | none =>
      have hnil := h.freeList.eq_nil_iff.mpr hp
      have := h.length
      rw [hnil, List.length_nil] at this
      omega
  obtain ⟨i, hi⟩ := hhead
  have hpos : 0 ≤ t.freeHeadIndex ∧ t.freeHeadIndex.toNat = i := by
    rw [toIndex] at hi
    split at hi
    · cases hi
    · exact ⟨by omega, Option.some.inj hi⟩
  have hlist := h.freeList
  rw [FreeList, hi] at hlist
  obtain ⟨L', rfl, hL'⟩ := hlist.pop
  obtain ⟨-, hnodup⟩ := List.nodup_cons.mp h.nodup
  have hlen := h.length
  rw [List.length_cons] at hlen
  refine ⟨i, L', { t with
    freeHeadIndex := (t.entryInfos i).toInt
    maxCount := max t.maxCount (t.count + 1)
    count := t.count + 1 }, rfl, ?_, ⟨h.size_le, hL', hnodup,
      fun j hj => h.lt j (List.mem_cons_of_mem i hj),
      fun j hj => h.free j (List.mem_cons_of_mem i hj), by dsimp only; omega, ?_⟩,
      rfl, rfl, rfl, rfl⟩
  · rw [KHandleTable.allocateEntry, assert_bind_of hc, assert_bind_of hpos.1, hpos.2]
    rfl
  · have h1 := BitVec.le_toInt (t.entryInfos i)
    have h2 := BitVec.toInt_lt (x := t.entryInfos i)
    exact ⟨h1, h2⟩

/-- **FreeEntry** puts an entry back. -/
theorem FreeOk.freeEntry (h : t.FreeOk L) {i : Nat} (hi : i < t.tableSize) (hL : i ∉ L) :
    ∃ t', t.freeEntry i = some t' ∧ t'.FreeOk (i :: L) ∧ SameElse i t t' ∧
      t'.nextLinearId = t.nextLinearId := by
  have hpos := h.count_pos hi hL
  have hlen := h.length
  have hsize := h.size_le
  refine ⟨{ (t.setObject i none).setEntryInfo i (BitVec.ofInt 16 t.freeHeadIndex) with
      freeHeadIndex := i
      count := t.count - 1 },
    by rw [KHandleTable.freeEntry, assert_bind_of hpos]; rfl,
    ⟨h.size_le, ?_, List.nodup_cons.mpr ⟨hL, h.nodup⟩, fun j hj => ?_, fun j hj => ?_, ?_, ?_⟩,
    ⟨rfl, fun j hj => if_neg hj, fun j hj => if_neg hj⟩, rfl⟩
  · have hhead : toIndex (i : Int) = some i := by
      rw [toIndex, if_neg (by omega), Int.toNat_natCast]
    rw [FreeList, hhead]
    refine h.freeList.push hL ?_ fun j hj => ?_
    · simp only [nextFree, setEntryInfo, setObject, if_pos, toIndex_ofInt h.head_range]
    · simp only [nextFree, setEntryInfo, setObject, if_neg hj]
  · rcases List.mem_cons.mp hj with rfl | hj
    · exact hi
    · exact h.lt j hj
  · dsimp only [setEntryInfo, setObject]
    split
    · rfl
    · rename_i hne
      rcases List.mem_cons.mp hj with rfl | hj
      · exact absurd rfl hne
      · exact h.free j hj
  · rw [List.length_cons]
    dsimp only [setEntryInfo, setObject]
    omega
  · dsimp only
    rw [maxTableSize] at hsize
    omega

/-- The loop of `Initialize` builds the free list from the last entry down to the first. -/
theorem initializeEntries_list : ∀ (n i : Nat) (t : KHandleTable α), i + n ≤ maxTableSize →
    t.freeHeadIndex = (i : Int) - 1 → t.FreeList (List.range i).reverse →
    (∀ j, j < i → t.objects j = none) →
    (initializeEntries n i t).freeHeadIndex = ((i + n : Nat) : Int) - 1 ∧
      (initializeEntries n i t).FreeList (List.range (i + n)).reverse ∧
      ∀ j, j < i + n → (initializeEntries n i t).objects j = none
  | 0, _, _, _, hhead, hlist, hfree => ⟨hhead, hlist, hfree⟩
  | n + 1, i, t, hn, hhead, hlist, hfree => by
    rw [maxTableSize] at hn
    have hstep := initializeEntries_list n (i + 1)
      { (t.setObject i none).setEntryInfo i (BitVec.ofInt 16 ((i : Int) - 1)) with
        freeHeadIndex := i } (by rw [maxTableSize]; omega) (by dsimp only; omega) ?_
      fun j hj => ?_
    · rw [show i + 1 + n = i + (n + 1) by omega] at hstep
      exact hstep
    · have hi : toIndex (i : Int) = some i := by
        rw [toIndex, if_neg (by omega), Int.toNat_natCast]
      rw [FreeList, hi, List.range_succ, List.reverse_concat]
      refine hlist.push (fun hm => ?_) ?_ fun j hj => ?_
      · exact absurd (List.mem_range.mp (List.mem_reverse.mp hm)) (Nat.lt_irrefl i)
      · simp only [nextFree, setEntryInfo, setObject, if_pos]
        rw [toIndex_ofInt ⟨by omega, by omega⟩, hhead]
      · simp only [nextFree, setEntryInfo, setObject, if_neg hj]
    · dsimp only [setEntryInfo, setObject]
      split
      · rfl
      · exact hfree j (by omega)

theorem initializeEntries_fields : ∀ (n i : Nat) (t : KHandleTable α),
    (initializeEntries n i t).tableSize = t.tableSize ∧
      (initializeEntries n i t).nextLinearId = t.nextLinearId ∧
      (initializeEntries n i t).count = t.count
  | 0, _, _ => ⟨rfl, rfl, rfl⟩
  | n + 1, i, _ => initializeEntries_fields n (i + 1) _

/-- **Initialize** makes every entry free. -/
theorem initializeTable_spec {size : Int} (hs : size ≤ maxTableSize) :
    ∃ t', t.initializeTable size = (.success, t') ∧
      t'.tableSize = (if size ≤ 0 then maxTableSize else size.toNat) ∧
      t'.FreeOk (List.range t'.tableSize).reverse ∧ t'.nextLinearId = minLinearId := by
  have hle : (if size ≤ 0 then maxTableSize else size.toNat) ≤ maxTableSize := by
    split
    · exact Nat.le_refl _
    · omega
  rw [initializeTable, if_pos hs]
  generalize (if size ≤ 0 then maxTableSize else size.toNat) = n at hle
  obtain ⟨hhead, hlist, hfree⟩ := initializeEntries_list n 0 { t with
    maxCount := 0
    tableSize := n
    nextLinearId := minLinearId
    count := 0
    freeHeadIndex := -1 } (by omega) rfl rfl fun j hj => absurd hj (Nat.not_lt_zero j)
  obtain ⟨hsize, hid, hcount⟩ := initializeEntries_fields n 0 { t with
    maxCount := 0
    tableSize := n
    nextLinearId := minLinearId
    count := 0
    freeHeadIndex := -1 }
  dsimp only at hsize hid hcount
  rw [Nat.zero_add] at hhead hlist hfree
  have hmem : ∀ i, i ∈ (List.range n).reverse ↔ i < n := fun i => by
    rw [List.mem_reverse, List.mem_range]
  refine ⟨_, rfl, hsize, ?_, hid⟩
  rw [hsize]
  refine ⟨?_, hlist, List.nodup_reverse.mpr List.nodup_range, fun i hi => ?_,
    fun i hi => hfree i ((hmem i).mp hi), ?_, ?_⟩
  · rw [hsize]
    exact hle
  · rw [hsize]
    exact (hmem i).mp hi
  · rw [hsize, hcount, List.length_reverse, List.length_range]
    exact Nat.zero_add n
  · rw [hhead]
    rw [maxTableSize] at hle
    omega

variable {hd : Handle}

theorem isValidHandle_iff : t.isValidHandle hd = true ↔
    hd.linearId ≠ 0 ∧ hd.index < t.tableSize ∧ t.objects hd.index ≠ none ∧
      (t.entryInfos hd.index).toNat = hd.linearId := by
  have hzero : (0 : Handle).linearId = 0 := by decide
  unfold isValidHandle
  by_cases h0 : hd = 0
  · rw [if_pos h0, h0]
    exact iff_of_false Bool.false_ne_true fun h => h.1 hzero
  rw [if_neg h0]
  by_cases h1 : hd.linearId = 0
  · rw [if_pos h1]
    exact iff_of_false Bool.false_ne_true fun h => h.1 h1
  rw [if_neg h1]
  by_cases h2 : hd.index ≥ t.tableSize
  · rw [if_pos h2]
    exact iff_of_false Bool.false_ne_true fun h => Nat.not_lt.mpr h2 h.2.1
  rw [if_neg h2]
  by_cases h3 : (t.objects hd.index).isNone = true
  · rw [if_pos h3]
    exact iff_of_false Bool.false_ne_true fun h => h.2.2.1 (Option.isNone_iff_eq_none.mp h3)
  rw [if_neg h3, beq_iff_eq]
  exact ⟨fun h => ⟨h1, Nat.lt_of_not_ge h2, fun he => h3 (Option.isNone_iff_eq_none.mpr he), h⟩,
    fun h => h.2.2.2⟩

/-- **GetObjectImpl** reads the entry of the handle and compares the ids. -/
theorem getObjectImpl_eq_some_iff {obj : α} : t.getObjectImpl hd = some obj ↔
    hd.reserved = 0 ∧ hd.linearId ≠ 0 ∧ hd.index < t.tableSize ∧ t.objects hd.index = some obj ∧
      (t.entryInfos hd.index).toNat = hd.linearId := by
  unfold getObjectImpl
  by_cases hr : hd.reserved ≠ 0
  · rw [if_pos hr]
    exact iff_of_false (fun h => nomatch h) fun h => hr h.1
  rw [if_neg hr]
  by_cases hv : t.isValidHandle hd = true
  · rw [if_pos hv]
    obtain ⟨h1, h2, -, h3⟩ := isValidHandle_iff.mp hv
    exact ⟨fun h => ⟨not_not.mp hr, h1, h2, h, h3⟩, fun h => h.2.2.2.1⟩
  · rw [if_neg hv]
    refine iff_of_false (fun h => nomatch h) fun ⟨_, h1, h2, ho, h3⟩ => hv ?_
    exact isValidHandle_iff.mpr ⟨h1, h2, by rw [ho]; exact Option.some_ne_none obj, h3⟩

theorem nextLinearId_succ {n : Nat} (h : t.nextLinearId = n % 0x7FFF + 1) :
    t.allocateLinearId.1 = n % 0x7FFF + 1 ∧ t.allocateLinearId.2.nextLinearId = (n + 1) % 0x7FFF + 1 := by
  refine ⟨h, ?_⟩
  simp only [allocateLinearId, h, maxLinearId, minLinearId]
  split <;> omega

end KHandleTable

/-! ## 4. The record of handles -/

/-- What became of a handle. -/
inductive Standing (α : Type) where
  | reserved
  | live (obj : α)
  | gone

/-- A handle that was issued, with the number of linear ids allocated before its own. -/
structure Issue (α : Type) where
  number : Nat
  handle : Handle
  standing : Standing α

/-- The table, the handles issued since `Initialize`, newest first, and how many ids that took. -/
structure TableState (α : Type) where
  table : KHandleTable α
  issues : List (Issue α)
  allocated : Nat

namespace Issue

variable {α : Type} {t t' : KHandleTable α}

/-- The handle `h`, unless it is gone already, gets a new standing. -/
def becomes (h : Handle) (st : Standing α) (i : Issue α) : Issue α :=
  match i.standing with
  | .gone => i
  | _ => if i.handle = h then { i with standing := st } else i

/-- The entry of a handle is as its standing says. -/
def Held (t : KHandleTable α) (i : Issue α) : Prop :=
  match i.standing with
  | .gone => True
  | .reserved => t.objects i.handle.index = none
  | .live obj => t.objects i.handle.index = some obj ∧
      (t.entryInfos i.handle.index).toNat = i.handle.linearId

variable {h : Handle} {st : Standing α} {i : Issue α}

theorem becomes_number : (i.becomes h st).number = i.number := by
  unfold becomes
  split
  · rfl
  · split <;> rfl

theorem becomes_handle : (i.becomes h st).handle = i.handle := by
  unfold becomes
  split
  · rfl
  · split <;> rfl

theorem becomes_gone (hi : i.standing = .gone) : i.becomes h st = i := by
  rw [becomes, hi]

theorem becomes_self (hi : i.standing ≠ .gone) (hh : i.handle = h) :
    i.becomes h st = { i with standing := st } := by
  unfold becomes
  split
  · exact absurd ‹_› hi
  · rw [if_pos hh]

theorem becomes_other (hh : i.handle ≠ h) : i.becomes h st = i := by
  unfold becomes
  split
  · rfl
  · rw [if_neg hh]

theorem Held.sameElse {k : Nat} (hi : i.Held t) (hs : KHandleTable.SameElse k t t')
    (hne : i.handle.index ≠ k) : i.Held t' := by
  unfold Held at *
  rw [hs.objects _ hne, hs.entryInfos _ hne]
  exact hi

end Issue

/-- The table and the record fit together: ids are handed out in turn, a handle that is not gone is
    the newest of its entry, and an entry is free unless it has such a handle. -/
structure TableInv {α : Type} (s : TableState α) (L : List Nat) : Prop where
  free : s.table.FreeOk L
  next : s.table.nextLinearId = s.allocated % 0x7FFF + 1
  distinct : (s.issues.map Issue.number).Nodup
  lt : ∀ i ∈ s.issues, i.number < s.allocated
  handle : ∀ i ∈ s.issues, i.handle = encodeHandle i.handle.index (i.number % 0x7FFF + 1) ∧
    i.handle.index < s.table.tableSize
  held : ∀ i ∈ s.issues, i.standing ≠ .gone → i.handle.index ∉ L ∧ i.Held s.table
  newest : ∀ i ∈ s.issues, i.standing ≠ .gone → ∀ j ∈ s.issues,
    j.handle.index = i.handle.index → j.number ≤ i.number
  cover : ∀ k, k < s.table.tableSize → k ∈ L ∨ ∃ i ∈ s.issues, i.handle.index = k ∧ i.standing ≠ .gone

namespace TableInv

open KHandleTable List Option BitVec

variable {α : Type} {s : TableState α} {t' : KHandleTable α} {L L' : List Nat} {i j : Issue α}
  {k : Nat} {st : Standing α}

theorem eq_of_number (h : TableInv s L) (hi : i ∈ s.issues) (hj : j ∈ s.issues)
    (hn : i.number = j.number) : i = j :=
  inj_on_of_nodup_map h.distinct hi hj hn

theorem eq_of_index (h : TableInv s L) (hi : i ∈ s.issues) (hi' : i.standing ≠ .gone)
    (hj : j ∈ s.issues) (hj' : j.standing ≠ .gone) (hk : j.handle.index = i.handle.index) :
    j = i :=
  h.eq_of_number hj hi (Nat.le_antisymm (h.newest i hi hi' j hj hk) (h.newest j hj hj' i hi hk.symm))

theorem linearId_eq (h : TableInv s L) (hi : i ∈ s.issues) :
    i.handle.linearId = i.number % 0x7FFF + 1 ∧ i.handle.reserved = 0 := by
  obtain ⟨he, -⟩ := h.handle i hi
  rw [he]
  exact ⟨encodeHandle_linearId (by omega), encodeHandle_reserved⟩

/-- A new handle for the first free entry. -/
theorem issue (h : TableInv s (k :: L')) (hs : SameElse k s.table t') (hf : t'.FreeOk L')
    (hn : t'.nextLinearId = (s.allocated + 1) % 0x7FFF + 1) (hst : st ≠ .gone)
    (hheld : Issue.Held t' ⟨s.allocated, encodeHandle k (s.allocated % 0x7FFF + 1), st⟩) :
    TableInv ⟨t', ⟨s.allocated, encodeHandle k (s.allocated % 0x7FFF + 1), st⟩ :: s.issues,
      s.allocated + 1⟩ L' := by
  have hk : k < s.table.tableSize := h.free.lt k mem_cons_self
  have hsize := h.free.size_le
  have hidx : (encodeHandle k (s.allocated % 0x7FFF + 1)).index = k :=
    encodeHandle_index (by rw [maxTableSize] at hsize; omega)
  have hkL : k ∉ L' := (nodup_cons.mp h.free.nodup).1
  -- the entry was free, so no handle of it stands
  have hne : ∀ i ∈ s.issues, i.standing ≠ .gone → i.handle.index ≠ k := fun i hi hi' he =>
    (h.held i hi hi').1 (he ▸ mem_cons_self)
  refine ⟨hf, hn, ?_, ?_, ?_, ?_, ?_, ?_⟩
  · refine nodup_cons.mpr ⟨fun hm => ?_, h.distinct⟩
    obtain ⟨i, hi, he⟩ := mem_map.mp hm
    exact absurd he (Nat.ne_of_lt (h.lt i hi))
  · intro i hi
    rcases mem_cons.mp hi with rfl | hi
    · exact Nat.lt_succ_self _
    · exact Nat.lt_succ_of_lt (h.lt i hi)
  · intro i hi
    rw [hs.size]
    rcases mem_cons.mp hi with rfl | hi
    · exact ⟨by dsimp only; rw [hidx], by rw [hidx]; exact hk⟩
    · exact h.handle i hi
  · intro i hi hi'
    rcases mem_cons.mp hi with rfl | hi
    · exact ⟨by rw [hidx]; exact hkL, hheld⟩
    · obtain ⟨hiL, hih⟩ := h.held i hi hi'
      exact ⟨fun hm => hiL (mem_cons_of_mem k hm), hih.sameElse hs (hne i hi hi')⟩
  · intro i hi hi' j hj hij
    rcases mem_cons.mp hi with rfl | hi
    · rcases mem_cons.mp hj with rfl | hj
      · exact Nat.le_refl _
      · exact Nat.le_of_lt (h.lt j hj)
    · rcases mem_cons.mp hj with rfl | hj
      · rw [hidx] at hij
        exact absurd hij.symm (hne i hi hi')
      · exact h.newest i hi hi' j hj hij
  · intro l hl
    rw [hs.size] at hl
    rcases h.cover l hl with hm | ⟨i, hi, he, hi'⟩
    · rcases mem_cons.mp hm with rfl | hm
      · exact .inr ⟨_, mem_cons_self, hidx, hst⟩
      · exact .inl hm
    · exact .inr ⟨i, mem_cons_of_mem _ hi, he, hi'⟩

/-- A handle gets a new standing; its entry is free from then on if the handle is gone. -/
theorem change (h : TableInv s L) (hi : i ∈ s.issues) (hi' : i.standing ≠ .gone)
    (hs : SameElse i.handle.index s.table t') (hf : t'.FreeOk L')
    (hL : ∀ l, l ∈ L' ↔ l ∈ L ∨ (l = i.handle.index ∧ st = .gone))
    (hn : t'.nextLinearId = s.table.nextLinearId) (hheld : Issue.Held t' { i with standing := st }) :
    TableInv ⟨t', s.issues.map (Issue.becomes i.handle st), s.allocated⟩ L' := by
  -- a handle that stands is this one or is of another entry
  have hcases : ∀ j ∈ s.issues, j.standing ≠ .gone →
      j = i ∨ (j.handle.index ≠ i.handle.index ∧ j.becomes i.handle st = j) := fun j hj hj' => by
    rcases Classical.em (j.handle.index = i.handle.index) with he | hne
    · exact .inl (h.eq_of_index hi hi' hj hj' he)
    · exact .inr ⟨hne, Issue.becomes_other fun he => hne (congrArg Handle.index he)⟩
  have hgone : ∀ j : Issue α, (j.becomes i.handle st).standing ≠ .gone → j.standing ≠ .gone :=
    fun j hj he => hj (by rw [Issue.becomes_gone he]; exact he)
  have hself : i.becomes i.handle st = { i with standing := st } := Issue.becomes_self hi' rfl
  refine ⟨hf, by rw [hn]; exact h.next, ?_, ?_, ?_, ?_, ?_, ?_⟩
  · have hmap : (s.issues.map (Issue.becomes i.handle st)).map Issue.number =
        s.issues.map Issue.number := by
      rw [List.map_map]
      exact map_congr_left fun j _ => Issue.becomes_number
    rw [hmap]
    exact h.distinct
  · intro j' hj'
    obtain ⟨j, hj, rfl⟩ := mem_map.mp hj'
    rw [Issue.becomes_number]
    exact h.lt j hj
  · intro j' hj'
    obtain ⟨j, hj, rfl⟩ := mem_map.mp hj'
    rw [Issue.becomes_number, Issue.becomes_handle, hs.size]
    exact h.handle j hj
  · intro j' hj' hst
    obtain ⟨j, hj, rfl⟩ := mem_map.mp hj'
    rw [Issue.becomes_handle, hL]
    have hjst := hgone j hst
    obtain ⟨hjL, hjh⟩ := h.held j hj hjst
    rcases hcases j hj hjst with rfl | ⟨hne, hb⟩
    · rw [hself] at hst ⊢
      exact ⟨by rintro (hm | ⟨-, he⟩); exacts [hjL hm, hst he], hheld⟩
    · rw [hb]
      exact ⟨by rintro (hm | ⟨he, -⟩); exacts [hjL hm, hne he], hjh.sameElse hs hne⟩
  · intro j' hj' hst l' hl' hjl
    obtain ⟨j, hj, rfl⟩ := mem_map.mp hj'
    obtain ⟨l, hl, rfl⟩ := mem_map.mp hl'
    rw [Issue.becomes_handle, Issue.becomes_handle] at hjl
    rw [Issue.becomes_number, Issue.becomes_number]
    exact h.newest j hj (hgone j hst) l hl hjl
  · intro l hl
    rw [hs.size] at hl
    rw [hL]
    rcases h.cover l hl with hm | ⟨j, hj, rfl, hj'⟩
    · exact .inl (.inl hm)
    · rcases hcases j hj hj' with rfl | ⟨-, hb⟩
      · rcases Classical.em (st = .gone) with hst | hst
        · exact .inl (.inr ⟨rfl, hst⟩)
        · exact .inr ⟨_, mem_map_of_mem hj, by rw [Issue.becomes_handle], by rw [hself]; exact hst⟩
      · exact .inr ⟨j, mem_map.mpr ⟨j, hj, hb⟩, rfl, hj'⟩

/-! ## 5. Lookups -/

/-- A lookup finds an object exactly if a live handle has that value. -/
theorem getObjectImpl_eq_some_iff (h : TableInv s L) {obj : α} :
    s.table.getObjectImpl hd = some obj ↔ ∃ i ∈ s.issues, i.handle = hd ∧ i.standing = .live obj := by
  rw [KHandleTable.getObjectImpl_eq_some_iff]
  constructor
  · rintro ⟨hres, -, hidx, hobj, hid⟩
    rcases h.cover hd.index hidx with hm | ⟨i, hi, he, hi'⟩
    · rw [h.free.free _ hm] at hobj
      cases hobj
    · obtain ⟨-, hheld⟩ := h.held i hi hi'
      obtain ⟨-, hr⟩ := h.linearId_eq hi
      unfold Issue.Held at hheld
      rw [he, hobj] at hheld
      cases hst : i.standing with
      | gone => exact absurd hst hi'
      | reserved =>
        rw [hst] at hheld
        cases hheld
      | live obj' =>
        rw [hst] at hheld
        obtain ⟨hobj', hid'⟩ := hheld
        cases hobj'
        refine ⟨i, hi, ?_, hst⟩
        rw [eq_encodeHandle hr, eq_encodeHandle hres, he, ← hid', hid]
  · rintro ⟨i, hi, rfl, hst⟩
    obtain ⟨hid, hr⟩ := h.linearId_eq hi
    obtain ⟨-, hidx⟩ := h.handle i hi
    obtain ⟨-, hheld⟩ := h.held i hi (by rw [hst]; exact fun he => nomatch he)
    rw [Issue.Held, hst] at hheld
    exact ⟨hr, by omega, hidx, hheld⟩

theorem getObjectImpl_of_gone (h : TableInv s L) (hi : i ∈ s.issues) (hst : i.standing = .gone)
    (hn : s.allocated ≤ i.number + 0x7FFF) : s.table.getObjectImpl i.handle = none := by
  cases hg : s.table.getObjectImpl i.handle with
  | none => rfl
  | some obj =>
    obtain ⟨j, hj, he, hj'⟩ := h.getObjectImpl_eq_some_iff.mp hg
    obtain ⟨hidi, -⟩ := h.linearId_eq hi
    obtain ⟨hidj, -⟩ := h.linearId_eq hj
    rw [he, hidi] at hidj
    have hle := h.newest j hj (by rw [hj']; exact fun he => nomatch he) i hi (congrArg Handle.index he.symm)
    have hlt := h.lt j hj
    have heq : i.number = j.number := by omega
    rw [h.eq_of_number hi hj heq, hj'] at hst
    cases hst

/-! ## 6. The operations -/

/-- **Add** issues a handle for the first free entry. -/
theorem add (h : TableInv s L) (hc : s.table.count < s.table.tableSize) (obj : α) : ∃ k L' t', L = k :: L' ∧
      s.table.add obj = some (some (encodeHandle k (s.allocated % 0x7FFF + 1)), t') ∧
      TableInv ⟨t', ⟨s.allocated, encodeHandle k (s.allocated % 0x7FFF + 1), .live obj⟩ :: s.issues,
        s.allocated + 1⟩ L' := by
  obtain ⟨hid, hnext⟩ := nextLinearId_succ h.next
  have hf : s.table.allocateLinearId.2.FreeOk L :=
    ⟨h.free.size_le, h.free.freeList, h.free.nodup, h.free.lt, h.free.free, h.free.length,
      h.free.head_range⟩
  obtain ⟨k, L', t1, rfl, halloc, hf1, hobjs, hinfos, hsize, hn1⟩ := hf.allocateEntry hc
  have hk : k < s.table.tableSize := h.free.lt k mem_cons_self
  have hkL : k ∉ L' := (nodup_cons.mp h.free.nodup).1
  have hle := h.free.size_le
  rw [maxTableSize] at hle
  refine ⟨k, L', (t1.setEntryInfo k (BitVec.ofNat 16 (s.allocated % 0x7FFF + 1))).setObject k
    (some obj), rfl, ?_, h.issue ⟨hsize, fun j hj => ?_, fun j hj => ?_⟩ (hf1.write hkL _ _) ?_
    (fun he => nomatch he) ⟨?_, ?_⟩⟩
  · have hpair : s.table.allocateLinearId =
        (s.allocated % 0x7FFF + 1, s.table.allocateLinearId.2) := Prod.ext hid rfl
    rw [KHandleTable.add, if_pos hc, hpair]
    dsimp only
    rw [halloc]
    rfl
  · exact (if_neg hj).trans (congrFun hobjs j)
  · exact (if_neg hj).trans (congrFun hinfos j)
  · exact hn1.trans hnext
  · dsimp only
    rw [encodeHandle_index (by omega)]
    exact if_pos rfl
  · dsimp only
    rw [encodeHandle_index (by omega), encodeHandle_linearId (by omega)]
    simp only [setEntryInfo, setObject, if_pos, toNat_ofNat]
    omega

/-- **Reserve** issues a handle without an object. -/
theorem reserve (h : TableInv s L) (hc : s.table.count < s.table.tableSize) : ∃ k L' t', L = k :: L' ∧
      s.table.reserve = some (some (encodeHandle k (s.allocated % 0x7FFF + 1)), t') ∧
      TableInv ⟨t', ⟨s.allocated, encodeHandle k (s.allocated % 0x7FFF + 1), .reserved⟩ :: s.issues,
        s.allocated + 1⟩ L' := by
  obtain ⟨k, L', t1, rfl, halloc, hf1, hobjs, hinfos, hsize, hn1⟩ := h.free.allocateEntry hc
  have hle := h.free.size_le
  have hk : k < s.table.tableSize := h.free.lt k mem_cons_self
  rw [maxTableSize] at hle
  obtain ⟨hid, hnext⟩ := nextLinearId_succ (t := t1) (hn1.trans h.next)
  refine ⟨k, L', t1.allocateLinearId.2, rfl, ?_, h.issue ⟨hsize, fun j _ => ?_, fun j _ => ?_⟩
    ⟨hf1.size_le, hf1.freeList, hf1.nodup, hf1.lt, hf1.free, hf1.length, hf1.head_range⟩ hnext
    (fun he => nomatch he) ?_⟩
  · rw [KHandleTable.reserve, if_pos hc, halloc, ← hid]
    rfl
  · exact congrFun hobjs j
  · exact congrFun hinfos j
  · show t1.objects (encodeHandle k (s.allocated % 0x7FFF + 1)).index = none
    rw [encodeHandle_index (by omega), hobjs]
    exact h.free.free k mem_cons_self

theorem freeEntry (h : TableInv s L) (hi : i ∈ s.issues) (hi' : i.standing ≠ .gone) :
    ∃ t', s.table.freeEntry i.handle.index = some t' ∧
      TableInv ⟨t', s.issues.map (Issue.becomes i.handle .gone), s.allocated⟩ (i.handle.index :: L) := by
  obtain ⟨hkL, -⟩ := h.held i hi hi'
  obtain ⟨t', ht', hf, hs, hn⟩ := h.free.freeEntry (h.handle i hi).2 hkL
  refine ⟨t', ht', h.change hi hi' hs hf (fun l => ?_) hn trivial⟩
  rw [mem_cons]
  constructor
  · rintro (he | hm)
    · exact .inr ⟨he, rfl⟩
    · exact .inl hm
  · rintro (hm | ⟨he, -⟩)
    · exact .inr hm
    · exact .inl he

/-- **Remove** of a live handle. -/
theorem remove (h : TableInv s L) (hi : i ∈ s.issues) {obj : α} (hst : i.standing = .live obj) :
    ∃ t', s.table.remove i.handle = some (true, t') ∧
      TableInv ⟨t', s.issues.map (Issue.becomes i.handle .gone), s.allocated⟩ (i.handle.index :: L) := by
  obtain ⟨t', ht', h'⟩ := h.freeEntry hi (by rw [hst]; exact fun he => nomatch he)
  have hget := h.getObjectImpl_eq_some_iff.mpr ⟨i, hi, rfl, hst⟩
  obtain ⟨hr, h1, h2, ho, h3⟩ := KHandleTable.getObjectImpl_eq_some_iff.mp hget
  have hv := isValidHandle_iff.mpr ⟨h1, h2, by rw [ho]; exact some_ne_none obj, h3⟩
  have hp : i.handle.isPseudoHandle = false := by
    rw [Handle.isPseudoHandle, Bool.or_eq_false_iff, beq_eq_false_iff_ne, beq_eq_false_iff_ne]
    constructor <;>
    · intro he
      rw [he] at hr
      exact absurd hr (by decide)
  refine ⟨t', ?_, h'⟩
  rw [KHandleTable.remove, hp, if_neg Bool.false_ne_true, if_neg (not_not.mpr hr), if_pos hv, ht']
  rfl

theorem remove_other (h : TableInv s L)
    (hd' : ¬∃ i ∈ s.issues, i.handle = hd ∧ ∃ obj, i.standing = .live obj) :
    s.table.remove hd = some (false, s.table) := by
  unfold KHandleTable.remove
  split
  · rfl
  split
  · rfl
  rename_i hr
  have hv : ¬s.table.isValidHandle hd = true := fun hv => by
    obtain ⟨h1, h2, ho, h3⟩ := isValidHandle_iff.mp hv
    obtain ⟨obj, ho⟩ := ne_none_iff_exists'.mp ho
    obtain ⟨i, hi, he, hst⟩ := h.getObjectImpl_eq_some_iff.mp
      (KHandleTable.getObjectImpl_eq_some_iff.mpr ⟨not_not.mp hr, h1, h2, ho, h3⟩)
    exact hd' ⟨i, hi, he, obj, hst⟩
  rw [if_neg hv]

theorem reserved_checks (h : TableInv s L) (hi : i ∈ s.issues) (hst : i.standing = .reserved) :
    i.handle.reserved = 0 ∧ i.handle.linearId ≠ 0 ∧ i.handle.index < s.table.tableSize ∧
      (s.table.objects i.handle.index).isNone = true := by
  obtain ⟨hid, hr⟩ := h.linearId_eq hi
  obtain ⟨-, hheld⟩ := h.held i hi (by rw [hst]; exact fun he => nomatch he)
  rw [Issue.Held, hst] at hheld
  exact ⟨hr, by omega, (h.handle i hi).2, isNone_iff_eq_none.mpr hheld⟩

/-- **Register** gives a reserved handle its object. -/
theorem register (h : TableInv s L) (hi : i ∈ s.issues) (hst : i.standing = .reserved) (obj : α) :
    ∃ t', s.table.register i.handle obj = some t' ∧
      TableInv ⟨t', s.issues.map (Issue.becomes i.handle (.live obj)), s.allocated⟩ L := by
  obtain ⟨hr, hid, hidx, hobj⟩ := h.reserved_checks hi hst
  have hi' : i.standing ≠ .gone := by rw [hst]; exact fun he => nomatch he
  obtain ⟨hkL, -⟩ := h.held i hi hi'
  refine ⟨_, ?_, h.change hi hi' (sameElse_write _ (BitVec.ofNat 16 i.handle.linearId) (some obj))
    (h.free.write hkL _ _) (fun l => ?_) rfl ⟨if_pos rfl, ?_⟩⟩
  · rw [KHandleTable.register, assert_bind_of hr, assert_bind_of hid, if_pos hidx,
      assert_bind_of hobj]
    rfl
  · exact ⟨.inl, by rintro (hm | ⟨-, he⟩); exacts [hm, nomatch he]⟩
  · have hlt : i.handle.linearId < 2 ^ 15 := Nat.mod_lt _ (by decide)
    simp only [setEntryInfo, setObject, if_pos, toNat_ofNat]
    omega

/-- **Unreserve** gives a reserved handle up. -/
theorem unreserve (h : TableInv s L) (hi : i ∈ s.issues) (hst : i.standing = .reserved) :
    ∃ t', s.table.unreserve i.handle = some t' ∧
      TableInv ⟨t', s.issues.map (Issue.becomes i.handle .gone), s.allocated⟩ (i.handle.index :: L) := by
  obtain ⟨hr, hid, hidx, hobj⟩ := h.reserved_checks hi hst
  obtain ⟨t', ht', h'⟩ := h.freeEntry hi (by rw [hst]; exact fun he => nomatch he)
  refine ⟨t', ?_, h'⟩
  rw [KHandleTable.unreserve, assert_bind_of hr, assert_bind_of hid, if_pos hidx,
    assert_bind_of hobj, ht']

theorem of_initializeTable (t : KHandleTable α) {size : Int} (hs : size ≤ maxTableSize) :
    ∃ t', t.initializeTable size = (.success, t') ∧
      t'.tableSize = (if size ≤ 0 then maxTableSize else size.toNat) ∧
      TableInv ⟨t', [], 0⟩ (List.range t'.tableSize).reverse := by
  obtain ⟨t', ht', hsize, hf, hid⟩ := @initializeTable_spec α t size hs
  refine ⟨t', ht', hsize, hf, hid, nodup_nil, (fun i hi => nomatch hi),
    (fun i hi => nomatch hi), (fun i hi => nomatch hi), (fun i hi => nomatch hi),
    fun k hk => .inl ?_⟩
  rw [mem_reverse, mem_range]
  exact hk

end TableInv

/-! ## 7. Every run -/

/-- A call on the handle table that may change it. -/
inductive TableOp (α : Type) where
  | initializeTable (size : Int)
  | add (obj : α)
  | remove (handle : Handle)
  | reserve
  | register (handle : Handle) (obj : α)
  | unreserve (handle : Handle)

/-- The table after a call that may have issued a handle. -/
def TableState.record {α : Type} (s : TableState α) (st : Standing α)
    (r : Option Handle × KHandleTable α) : TableState α :=
  match r with
  | (some handle, t) => ⟨t, ⟨s.allocated, handle, st⟩ :: s.issues, s.allocated + 1⟩
  | (none, t) => ⟨t, s.issues, s.allocated⟩

namespace TableOp

open KHandleTable

variable {α : Type}

/-- The call, and what it makes of the record. -/
def run (op : TableOp α) (s : TableState α) : Option (TableState α) :=
  match op with
  | initializeTable size =>
    match s.table.initializeTable size with
    | (.success, t) => some ⟨t, [], 0⟩
    | (_, t) => some ⟨t, s.issues, s.allocated⟩
  | add obj => do
    let r ← s.table.add obj
    return s.record (.live obj) r
  | remove handle => do
    let (removed, t) ← s.table.remove handle
    return ⟨t, if removed then s.issues.map (Issue.becomes handle .gone) else s.issues, s.allocated⟩
  | reserve => do
    let r ← s.table.reserve
    return s.record .reserved r
  | register handle obj => do
    let t ← s.table.register handle obj
    return ⟨t, s.issues.map (Issue.becomes handle (.live obj)), s.allocated⟩
  | unreserve handle => do
    let t ← s.table.unreserve handle
    return ⟨t, s.issues.map (Issue.becomes handle .gone), s.allocated⟩

/-- `Register` and `Unreserve` are given a handle that is reserved and not registered. -/
def Legal (op : TableOp α) (s : TableState α) : Prop :=
  match op with
  | register handle _ => ∃ i ∈ s.issues, i.handle = handle ∧ i.standing = .reserved
  | unreserve handle => ∃ i ∈ s.issues, i.handle = handle ∧ i.standing = .reserved
  | _ => True

/-- `Add` and `Reserve` fail exactly if every entry is in use, and `Remove` removes exactly the
    live handles. -/
def Outcome (op : TableOp α) (s s' : TableState α) : Prop :=
  match op with
  | initializeTable size => size ≤ maxTableSize ∧ s'.issues = [] ∨ maxTableSize < size ∧ s' = s
  | add obj => s.table.count < s.table.tableSize ∧
      (∃ handle, s'.issues = ⟨s.allocated, handle, .live obj⟩ :: s.issues) ∨
      s.table.count = s.table.tableSize ∧ s.table.add obj = some (none, s.table) ∧ s' = s
  | remove handle =>
    (∃ i ∈ s.issues, i.handle = handle ∧ ∃ obj, i.standing = .live obj) ∧
      s'.issues = s.issues.map (Issue.becomes handle .gone) ∨
    (¬∃ i ∈ s.issues, i.handle = handle ∧ ∃ obj, i.standing = .live obj) ∧ s' = s
  | reserve => s.table.count < s.table.tableSize ∧
      (∃ handle, s'.issues = ⟨s.allocated, handle, .reserved⟩ :: s.issues) ∨
      s.table.count = s.table.tableSize ∧ s.table.reserve = some (none, s.table) ∧ s' = s
  | register handle obj => s'.issues = s.issues.map (Issue.becomes handle (.live obj))
  | unreserve handle => s'.issues = s.issues.map (Issue.becomes handle .gone)

variable {s s' : TableState α} {L : List Nat}

theorem add_run {obj : α} {handle : Handle} {t : KHandleTable α}
    (h : s.table.add obj = some (some handle, t)) : (add obj).run s =
      some ⟨t, ⟨s.allocated, handle, .live obj⟩ :: s.issues, s.allocated + 1⟩ := by
  rw [run, h]
  rfl

theorem remove_run {handle : Handle} {t : KHandleTable α}
    (h : s.table.remove handle = some (true, t)) : (remove handle).run s =
      some ⟨t, s.issues.map (Issue.becomes handle .gone), s.allocated⟩ := by
  rw [run, h]
  rfl

/-- One call. -/
theorem run_step (h : TableInv s L) {op : TableOp α} (hop : op.Legal s) :
    ∃ s', op.run s = some s' ∧ op.Outcome s s' ∧ ∃ L', TableInv s' L' := by
  cases op with
  | initializeTable size =>
    rcases Int.lt_or_le maxTableSize size with hs | hs
    · refine ⟨s, ?_, .inr ⟨hs, rfl⟩, L, h⟩
      rw [run, KHandleTable.initializeTable, if_neg (by omega)]
    · obtain ⟨t', ht', -, h'⟩ := TableInv.of_initializeTable s.table hs
      exact ⟨⟨t', [], 0⟩, by rw [run, ht'], .inl ⟨hs, rfl⟩, _, h'⟩
  | add obj =>
    by_cases hc : s.table.count < s.table.tableSize
    · obtain ⟨k, L', t', -, hadd, h'⟩ := h.add hc obj
      exact ⟨_, add_run hadd, .inl ⟨hc, _, rfl⟩, L', h'⟩
    · have he := h.free.count_eq_of_full hc
      have hadd : s.table.add obj = some (none, s.table) := if_neg hc
      exact ⟨s, by rw [run, hadd]; rfl, .inr ⟨he, hadd, rfl⟩, L, h⟩
  | remove handle =>
    by_cases hd : ∃ i ∈ s.issues, i.handle = handle ∧ ∃ obj, i.standing = .live obj
    · obtain ⟨i, hi, rfl, obj, hst⟩ := hd
      obtain ⟨t', ht', h'⟩ := h.remove hi hst
      exact ⟨_, remove_run ht', .inl ⟨⟨i, hi, rfl, obj, hst⟩, rfl⟩, _, h'⟩
    · exact ⟨s, by rw [run, h.remove_other hd]; rfl, .inr ⟨hd, rfl⟩, L, h⟩
  | reserve =>
    by_cases hc : s.table.count < s.table.tableSize
    · obtain ⟨k, L', t', -, hres, h'⟩ := h.reserve hc
      exact ⟨_, by rw [run, hres]; rfl, .inl ⟨hc, _, rfl⟩, L', h'⟩
    · have he := h.free.count_eq_of_full hc
      have hres : s.table.reserve = some (none, s.table) := if_neg hc
      exact ⟨s, by rw [run, hres]; rfl, .inr ⟨he, hres, rfl⟩, L, h⟩
  | register handle obj =>
    obtain ⟨i, hi, rfl, hst⟩ := hop
    obtain ⟨t', ht', h'⟩ := h.register hi hst obj
    exact ⟨⟨t', _, _⟩, by rw [run, ht']; rfl, rfl, L, h'⟩
  | unreserve handle =>
    obtain ⟨i, hi, rfl, hst⟩ := hop
    obtain ⟨t', ht', h'⟩ := h.unreserve hi hst
    exact ⟨⟨t', _, _⟩, by rw [run, ht']; rfl, rfl, _, h'⟩

/-- The states that a table gets into once it is initialized. -/
inductive Reachable : TableState α → Prop
  | initial {t t' : KHandleTable α} {size : Int} (hi : t.initializeTable size = (.success, t')) :
      Reachable ⟨t', [], 0⟩
  | step {s s' : TableState α} {op : TableOp α} (hr : Reachable s)
      (hrun : op.run s = some s') (hop : op.Legal s) : Reachable s'

theorem Reachable.inv (hr : Reachable s) : ∃ L, TableInv s L := by
  induction hr with
  | @initial t t' size hi =>
    rcases Int.lt_or_le maxTableSize size with hs | hs
    · rw [KHandleTable.initializeTable, if_neg (by omega)] at hi
      cases hi
    · obtain ⟨t1, ht1, -, h⟩ := TableInv.of_initializeTable t hs
      rw [hi] at ht1
      cases ht1
      exact ⟨_, h⟩
  | step _ hrun hop ih =>
    obtain ⟨L, h⟩ := ih
    obtain ⟨s', hs', -, h'⟩ := run_step h hop
    rw [hrun] at hs'
    cases hs'
    exact h'

/-- The table is a partial map: the free list has the entries that are neither occupied nor
    reserved, live handles resolve to their object and all other values to nothing, among them a
    removed handle until 0x7FFF ids were allocated after its own. -/
structure Maps (s : TableState α) : Prop where
  freeList : ∃ L, s.table.FreeList L ∧ L.Nodup ∧ L.length = s.table.tableSize - s.table.count ∧
    ∀ k, k ∈ L ↔ k < s.table.tableSize ∧ s.table.objects k = none ∧
      ¬∃ i ∈ s.issues, i.handle.index = k ∧ i.standing = .reserved
  live : ∀ i ∈ s.issues, ∀ obj, i.standing = .live obj → s.table.getObjectImpl i.handle = some obj
  gone : ∀ i ∈ s.issues, i.standing = .gone → s.allocated - (i.number + 1) < 0x7FFF →
    s.table.getObjectImpl i.handle = none
  other : ∀ handle, (∀ i ∈ s.issues, i.handle = handle → ∀ obj, i.standing ≠ .live obj) →
    s.table.getObjectImpl handle = none

theorem maps (h : TableInv s L) : Maps s := by
  refine ⟨⟨L, h.free.freeList, h.free.nodup, h.free.count_eq, fun k => ?_⟩, ?_, ?_, ?_⟩
  · constructor
    · intro hk
      refine ⟨h.free.lt k hk, h.free.free k hk, ?_⟩
      rintro ⟨i, hi, rfl, hst⟩
      exact (h.held i hi (by rw [hst]; exact fun he => nomatch he)).1 hk
    · rintro ⟨hk, hobj, hno⟩
      rcases h.cover k hk with hm | ⟨i, hi, rfl, hi'⟩
      · exact hm
      · obtain ⟨-, hheld⟩ := h.held i hi hi'
        unfold Issue.Held at hheld
        cases hst : i.standing with
        | gone => exact absurd hst hi'
        | reserved => exact absurd ⟨i, hi, rfl, hst⟩ hno
        | live obj =>
          rw [hst, hobj] at hheld
          cases hheld.1
  · intro i hi obj hst
    exact h.getObjectImpl_eq_some_iff.mpr ⟨i, hi, rfl, hst⟩
  · intro i hi hst hn
    exact h.getObjectImpl_of_gone hi hst (by omega)
  · intro handle hno
    cases hg : s.table.getObjectImpl handle with
    | none => rfl
    | some obj =>
      obtain ⟨i, hi, he, hst⟩ := h.getObjectImpl_eq_some_iff.mp hg
      exact absurd hst (hno i hi he obj)

/-- **The handle table is a partial map from handles to objects**, in every state of every run, and
    every call there returns with the outcome it should have. -/
theorem run_maps (s : TableState α) (hr : Reachable s) :
    Maps s ∧ ∀ op : TableOp α, op.Legal s → ∃ s', op.run s = some s' ∧ op.Outcome s s' := by
  obtain ⟨L, h⟩ := hr.inv
  refine ⟨maps h, fun op hop => ?_⟩
  obtain ⟨s', hs', ho, -⟩ := run_step h hop
  exact ⟨s', hs', ho⟩

/-- A table before its first `Initialize`. -/
def blank : KHandleTable Unit := ⟨fun _ => 0, fun _ => none, 0, 0, 0, 0, 0⟩

/-- Two handles are added to a table of two entries; a third one does not fit. -/
theorem run_maps_two : ∃ s₁ s₂, (add ()).run ⟨(blank.initializeTable 2).2, [], 0⟩ = some s₁ ∧
    (add ()).run s₁ = some s₂ ∧ Maps s₂ ∧ s₂.table.getObjectImpl 0x10000 = some () ∧
    ∃ s₃, (add ()).run s₂ = some s₃ ∧ (add ()).Outcome s₂ s₃ := by
  have hval : (((add ()).run ⟨(blank.initializeTable 2).2, [], 0⟩).bind fun s₁ =>
      ((add ()).run s₁).map fun s₂ => s₂.table.getObjectImpl 0x10000) = some (some ()) := by
    decide +kernel
  obtain ⟨s₁, hs₁, hval⟩ := Option.bind_eq_some_iff.mp hval
  obtain ⟨s₂, hs₂, hget⟩ := Option.map_eq_some_iff.mp hval
  have hinit : blank.initializeTable 2 = (.success, (blank.initializeTable 2).2) := rfl
  have hr₀ := Reachable.initial hinit
  obtain ⟨hmaps, hops⟩ := run_maps s₂ ((hr₀.step hs₁ trivial).step hs₂ trivial)
  exact ⟨s₁, s₂, hs₁, hs₂, hmaps, hget, hops (add ()) trivial⟩

theorem churn {s : TableState Unit} (hr : Reachable s) (h : TableInv s [0]) {i : Issue Unit}
    (hi : i ∈ s.issues) (hi' : i.handle.index = 1) :
    ∃ s', Reachable s' ∧ TableInv s' [0] ∧ i ∈ s'.issues ∧ s'.allocated = s.allocated + 1 := by
  obtain ⟨k, L', t1, hL, hadd, h1⟩ := h.add h.free.count_lt ()
  cases hL
  obtain ⟨t2, ht2, h2⟩ := h1.remove List.mem_cons_self rfl
  have hidx : (encodeHandle 0 (s.allocated % 0x7FFF + 1)).index = 0 := encodeHandle_index (by decide)
  have hne : i.handle ≠ encodeHandle 0 (s.allocated % 0x7FFF + 1) := fun he => by
    rw [he, hidx] at hi'
    exact absurd hi' (by decide)
  dsimp only at h2 ht2
  rw [hidx] at h2
  exact ⟨_, (hr.step (add_run hadd) trivial).step (remove_run ht2) trivial, h2,
    List.mem_map.mpr ⟨i, List.mem_cons_of_mem _ hi, Issue.becomes_other hne⟩, rfl⟩

theorem churns : ∀ (n : Nat) {s : TableState Unit}, Reachable s → TableInv s [0] →
    ∀ {i : Issue Unit}, i ∈ s.issues → i.handle.index = 1 →
    ∃ s', Reachable s' ∧ TableInv s' [0] ∧ i ∈ s'.issues ∧ s'.allocated = s.allocated + n
  | 0, s, hr, h, _, hi, _ => ⟨s, hr, h, hi, rfl⟩
  | n + 1, s, hr, h, i, hi, hi' => by
    obtain ⟨s1, hr1, h1, hi1, ha1⟩ := churn hr h hi hi'
    obtain ⟨s', hr', h', hs', ha'⟩ := churns n hr1 h1 hi1 hi'
    exact ⟨s', hr', h', hs', by omega⟩

/-- A handle that is removed long after it was added resolves again one id later. -/
theorem run_resolves_removed : ∃ (s₀ s₁ s₂ : TableState Unit) (handle : Handle), Reachable s₀ ∧
    (∃ i ∈ s₀.issues, i.handle = handle ∧ i.standing = .live ()) ∧
    (remove handle).run s₀ = some s₁ ∧ s₁.table.getObjectImpl handle = none ∧
    (add ()).run s₁ = some s₂ ∧ s₂.allocated = s₁.allocated + 1 ∧
    s₂.table.getObjectImpl handle = some () := by
  obtain ⟨t, ht, hsize, h⟩ := TableInv.of_initializeTable blank (show (2 : Int) ≤ maxTableSize by decide)
  have hsize' : t.tableSize = 2 := hsize
  rw [hsize', show (List.range 2).reverse = [1, 0] by decide] at h
  -- the first handle takes entry 1
  obtain ⟨k, L', t₁, hL, hadd, h₁⟩ := h.add h.free.count_lt ()
  cases hL
  -- it stays while 0x7FFE further handles come and go
  have hidx : (encodeHandle 1 (0 % 0x7FFF + 1)).index = 1 := by decide
  obtain ⟨s₀, hr₀, h₀, hi₀, ha₀⟩ := churns 0x7FFE
    ((Reachable.initial ht).step (add_run hadd) trivial) h₁ List.mem_cons_self hidx
  dsimp only at ha₀ hi₀
  obtain ⟨t₂, ht₂, h₂⟩ := h₀.remove hi₀ rfl
  dsimp only at h₂ ht₂
  rw [hidx] at h₂
  -- the next handle takes its entry and its id
  obtain ⟨k, L', t₃, hL, hadd₃, h₃⟩ := h₂.add h₂.free.count_lt ()
  cases hL
  dsimp only at h₃ hadd₃
  rw [ha₀] at h₃ hadd₃
  refine ⟨s₀, _, _, encodeHandle 1 (0 % 0x7FFF + 1), hr₀, ⟨_, hi₀, rfl, rfl⟩, remove_run ht₂, ?_,
    add_run hadd₃, rfl, ?_⟩
  · refine h₂.getObjectImpl_of_gone (List.mem_map.mpr ⟨_, hi₀, Issue.becomes_self ?_ rfl⟩) rfl ?_
    · exact fun he => nomatch he
    · dsimp only
      omega
  · exact h₃.getObjectImpl_eq_some_iff.mpr ⟨_, List.mem_cons_self, rfl, rfl⟩

end TableOp

end Yuzu.Kernel
