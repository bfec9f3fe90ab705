/-
  File:      Yuzu/Kernel/MemoryRegionTree.lean
  Subject:   `KMemoryRegionTree::Insert` (core/hle/kernel/k_memory_layout.cpp): one region is split into up to
             three, and what the tree says of the addresses.

  The red-black tree is the list of its regions in order. Addresses are natural numbers below 2^64, and sums
  of them are cut to 64 bits where the code forms them.
-/
import Mathlib
import Yuzu.Lib.OrderedTree
import Yuzu.Lib.Tiling

namespace Yuzu.Kernel

/-! ## 1. Regions -/

/-- `KMemoryRegion`. -/
structure KMemoryRegion where
  address : Nat
  lastAddress : Nat
  pairAddress : UInt64
  attributes : UInt32
  typeId : UInt32
deriving DecidableEq

/-- The pair address that stands for none: the largest number of 64 bits. -/
def noPair : UInt64 := 0xFFFFFFFFFFFFFFFF

namespace KMemoryRegion

/-- Where a region ends. -/
def stop (r : KMemoryRegion) : Nat := r.lastAddress + 1

/-- `Compare` of a region that starts at an address with a region of the tree. -/
def compare (address : Nat) (rhs : KMemoryRegion) : Ordering :=
  if address < rhs.address then .lt else if address ≤ rhs.lastAddress then .eq else .gt

/-- `CanDerive`. -/
def canDerive (r : KMemoryRegion) (type : UInt32) : Bool := r.typeId ||| type = type

/-- The pair of an address in a region. -/
def translate (r : KMemoryRegion) (p : Nat) : Option UInt64 :=
  if r.pairAddress = noPair then none else some (r.pairAddress + UInt64.ofNat (p - r.address))

end KMemoryRegion

open KMemoryRegion List Option

/-- `KMemoryRegionTree`. -/
abbrev KMemoryRegionTree := List KMemoryRegion

namespace KMemoryRegionTree

/-! ## 2. Insert -/

/-- `FindModifiable`. -/
def findModifiable (tree : KMemoryRegionTree) (address : Nat) : Option KMemoryRegion :=
  treeFind (compare address) tree

/-- `insert` of the red-black tree. -/
def put (tree : KMemoryRegionTree) (r : KMemoryRegion) : KMemoryRegionTree := treeInsert (compare r.address) r tree

/-- The pair address of a part that starts at an offset of the region. -/
def newPair (oldPair : UInt64) (offset : Nat) : UInt64 :=
  if oldPair ≠ noPair then oldPair + UInt64.ofNat offset else oldPair

/-- `Insert`. An address that is in no region is a null pointer: there is no result. -/
def insert (tree : KMemoryRegionTree) (address size : Nat) (typeId newAttr oldAttr : UInt32) :
    Option (Bool × KMemoryRegionTree) := do
  let found ← tree.findModifiable address
  if found.attributes ≠ oldAttr then return (false, tree)
  let insertedRegionEnd := (address + size) % 2 ^ 64
  let insertedRegionLast := (insertedRegionEnd + (2 ^ 64 - 1)) % 2 ^ 64
  if found.lastAddress < insertedRegionLast then return (false, tree)
  if !found.canDerive typeId then return (false, tree)
  let tree := tree.erase found
  let tree :=
    if found.address = address then put tree ⟨address, insertedRegionLast, found.pairAddress, newAttr, typeId⟩
    else
      let tree := put tree ⟨found.address, address - 1, found.pairAddress, oldAttr, found.typeId⟩
      put tree ⟨address, insertedRegionLast, newPair found.pairAddress (address - found.address), newAttr, typeId⟩
  let tree :=
    if found.lastAddress ≠ insertedRegionLast then
      put tree ⟨insertedRegionEnd, found.lastAddress,
        newPair found.pairAddress (insertedRegionEnd - found.address), oldAttr, found.typeId⟩
    else tree
  return (true, tree)

/-! ## 3. The tree as a map -/

/-- The regions cover the addresses from one to another, in order. -/
abbrev Covers : Nat → Nat → KMemoryRegionTree → Prop := Tiles address KMemoryRegion.stop

/-- The regions partition a range of addresses. -/
structure Partition (first stop : Nat) (tree : KMemoryRegionTree) : Prop where
  tiles : Covers first stop tree
  stop_le : stop ≤ 2 ^ 64

/-- The region that holds an address. -/
def regionAt (tree : KMemoryRegionTree) (p : Nat) : Option KMemoryRegion :=
  valueAt address KMemoryRegion.stop id tree p

/-- The attributes and the type of an address. -/
def kindAt (tree : KMemoryRegionTree) (p : Nat) : Option (UInt32 × UInt32) :=
  (tree.regionAt p).map fun r => (r.attributes, r.typeId)

/-- The pair of an address, if a region holds it. -/
def pairAt (tree : KMemoryRegionTree) (p : Nat) : Option (Option UInt64) := (tree.regionAt p).map (·.translate p)

section Split

variable {tree xs ys ps qs : KMemoryRegionTree} {r : KMemoryRegion} {first stop m p : Nat}

theorem compare_of_before (h : Covers first m xs) (hp : m ≤ p) :
    ∀ x ∈ xs, compare p x = .gt := by
  intro x hx
  have hlt := h.lo_lt_hi x hx
  rw [KMemoryRegion.stop] at hlt
  rw [KMemoryRegion.compare, if_neg (by omega), if_neg (by omega)]

theorem compare_of_behind (h : Covers m stop ys) (hp : p < m) :
    ∀ y ∈ ys, compare p y = .lt := by
  intro y hy
  have hlt := h.lo_lt_hi y hy
  rw [KMemoryRegion.compare, if_pos (by omega)]

theorem put_between (hxs : Covers first m xs) (hr : m ≤ r.address)
    (hys : Covers p stop ys) (hp : r.address < p) :
    put (xs ++ ys) r = xs ++ r :: ys :=
  treeInsert_between (compare_of_before hxs hr) (compare_of_behind hys hp)

/-- **The region of an address** splits the tree, and the lookup finds it. -/
theorem Partition.split (h : Partition first stop tree) (hp : first ≤ p ∧ p < stop) :
    ∃ xs r ys, tree = xs ++ r :: ys ∧ Covers first r.address xs ∧
      Covers r.stop stop ys ∧ (r.address ≤ p ∧ p < r.stop) ∧ tree.findModifiable p = some r ∧
      tree.erase r = xs ++ ys ∧ ∀ q, r.address ≤ q ∧ q < r.stop → tree.regionAt q = some r := by
  obtain ⟨xs, r, ys, rfl, hxs, hr, hys⟩ := h.tiles.exists_split hp.1 hp.2
  have hlast : p ≤ r.lastAddress := Nat.le_of_lt_succ hr.2
  refine ⟨xs, r, ys, rfl, hxs, hys, hr, ?_, ?_, fun q hq => ?_⟩
  · refine treeFind_between (fun x hx => ?_) ?_
    · rw [compare_of_before hxs hr.1 x hx]
      decide
    · rw [KMemoryRegion.compare, if_neg (by omega), if_pos hlast]
  · have hout : r ∉ xs := fun hmem => by
      have := hxs.lo_lt_hi r hmem
      omega
    rw [erase_append_right _ hout, erase_cons_head]
  · rw [regionAt, hxs.valueAt_append hq.1, valueAt_cons, if_pos hq]
    rfl

end Split

/-! ## 4. What an insertion does -/

section Insert

variable {tree : KMemoryRegionTree} {found : KMemoryRegion} {first stop address size p : Nat}
  {typeId newAttr oldAttr : UInt32}

/-- **The condition of `Insert`** on the region that holds the address. -/
def Fits (found : KMemoryRegion) (address size : Nat) (typeId oldAttr : UInt32) : Prop :=
  found.attributes = oldAttr ∧ address + size ≤ found.stop ∧ found.canDerive typeId = true

/-- The region before the new one. -/
def before (found : KMemoryRegion) (address : Nat) (oldAttr : UInt32) : KMemoryRegionTree :=
  if found.address = address then []
  else [⟨found.address, address - 1, found.pairAddress, oldAttr, found.typeId⟩]

/-- The new region; where it starts with the old one it is the old object. -/
def new (found : KMemoryRegion) (address size : Nat) (typeId newAttr : UInt32) : KMemoryRegion :=
  ⟨address, address + size - 1,
    if found.address = address then found.pairAddress else newPair found.pairAddress (address - found.address),
    newAttr, typeId⟩

/-- The region behind the new one. -/
def after (found : KMemoryRegion) (address size : Nat) (oldAttr : UInt32) : KMemoryRegionTree :=
  if found.lastAddress = address + size - 1 then []
  else [⟨address + size, found.lastAddress, newPair found.pairAddress (address + size - found.address), oldAttr,
    found.typeId⟩]

/-- The parts of a region that is split. -/
def parts (found : KMemoryRegion) (address size : Nat) (typeId newAttr oldAttr : UInt32) : KMemoryRegionTree :=
  before found address oldAttr ++ new found address size typeId newAttr :: after found address size oldAttr

theorem before_tiles (oldAttr : UInt32) (hin : found.address ≤ address) :
    Covers found.address address (before found address oldAttr) := by
  unfold before
  split
  · assumption
  · simp [KMemoryRegion.stop]
    omega

theorem after_tiles (hsize : 0 < size) (hfit : address + size ≤ found.stop) :
    Covers (address + size) found.stop
      (after found address size oldAttr) := by
  rw [KMemoryRegion.stop] at *
  unfold after
  split
  · rw [Covers, tiles_nil]
    omega
  · simp [KMemoryRegion.stop]
    omega

theorem new_tiles (hsize : 0 < size) : Covers address (address + size)
    [new found address size typeId newAttr] := by
  simp [new, KMemoryRegion.stop]
  omega

theorem parts_tiles (typeId newAttr oldAttr : UInt32) (hin : found.address ≤ address) (hsize : 0 < size)
    (hfit : address + size ≤ found.stop) :
    Covers found.address found.stop (parts found address size typeId newAttr oldAttr) := by
  rw [parts, append_cons]
  exact ((before_tiles oldAttr hin).append (new_tiles hsize)).append (after_tiles hsize hfit)

/-- **An insertion that fits** puts the parts in the place of the region. -/
theorem insert_of_fits {xs ys : KMemoryRegionTree} (hfind : tree.findModifiable address = some found)
    (herase : tree.erase found = xs ++ ys)
    (hxs : Covers first found.address xs)
    (hys : Covers found.stop stop ys) (hstop : stop ≤ 2 ^ 64)
    (hin : found.address ≤ address) (hsize : 0 < size) (h : Fits found address size typeId oldAttr) :
    tree.insert address size typeId newAttr oldAttr =
      some (true, xs ++ (parts found address size typeId newAttr oldAttr ++ ys)) := by
  obtain ⟨hattr, hfit, hderive⟩ := h
  have hle := hys.le
  rw [KMemoryRegion.stop] at hle hfit
  have hbehind : address < found.stop := by
    rw [KMemoryRegion.stop]
    omega
  have hlast : ((address + size) % 2 ^ 64 + (2 ^ 64 - 1)) % 2 ^ 64 = address + size - 1 := by omega
  have hstart : (if found.address = address then
        put (xs ++ ys) ⟨address, address + size - 1, found.pairAddress, newAttr, typeId⟩
      else put (put (xs ++ ys) ⟨found.address, address - 1, found.pairAddress, oldAttr, found.typeId⟩)
        ⟨address, address + size - 1, newPair found.pairAddress (address - found.address), newAttr, typeId⟩) =
      (xs ++ before found address oldAttr ++ [new found address size typeId newAttr]) ++ ys := by
    have hnew := hxs.append (before_tiles oldAttr hin)
    by_cases heq : found.address = address
    · rw [if_pos heq, put_between hxs ?_ hys ?_]
      · simp [before, new, heq]
      · exact hin
      · exact hbehind
    · simp only [before, new, if_neg heq] at hnew ⊢
      rw [put_between hxs ?_ hys ?_, append_cons, put_between hnew ?_ hys ?_, append_cons]
      · exact Nat.le_refl _
      · exact hbehind
      · exact Nat.le_refl _
      · exact Nat.lt_of_le_of_lt hin hbehind
  simp only [insert, hfind, bind_eq_bind, bind_some, herase, hlast, hattr, hderive]
  rw [if_neg (by simp), if_neg (by omega), if_neg (by simp), hstart]
  by_cases heq : found.lastAddress = address + size - 1
  · rw [if_neg (not_not_intro heq)]
    simp [parts, after, heq]
  · have hnew : Covers first (address + size)
        (xs ++ before found address oldAttr ++ [new found address size typeId newAttr]) :=
      (hxs.append (before_tiles oldAttr hin)).append (new_tiles hsize)
    rw [if_pos heq, Nat.mod_eq_of_lt (by omega), put_between hnew ?_ hys ?_]
    · simp [parts, after, heq]
    · exact Nat.le_refl _
    · change address + size < found.lastAddress + 1
      omega

theorem insert_of_not_fits (hfind : tree.findModifiable address = some found) (hsize : 0 < size)
    (hwrap : address + size - 1 < 2 ^ 64) (h : ¬Fits found address size typeId oldAttr) :
    tree.insert address size typeId newAttr oldAttr = some (false, tree) := by
  have hlast : ((address + size) % 2 ^ 64 + (2 ^ 64 - 1)) % 2 ^ 64 = address + size - 1 := by omega
  simp only [insert, hfind, bind_eq_bind, bind_some, hlast]
  split
  · rfl
  split
  · rfl
  split
  · rfl
  · rename_i hattr hle hderive
    refine absurd ⟨not_not.mp hattr, ?_, by simpa using hderive⟩ h
    rw [KMemoryRegion.stop]
    omega

theorem parts_at {ys : KMemoryRegionTree} (hsize : 0 < size) (hin : found.address ≤ address)
    (hp : found.address ≤ p ∧ p < found.stop) :
    regionAt (parts found address size typeId newAttr oldAttr ++ ys) p = some
      (if p < address then ⟨found.address, address - 1, found.pairAddress, oldAttr, found.typeId⟩
      else if p < address + size then new found address size typeId newAttr
      else ⟨address + size, found.lastAddress, newPair found.pairAddress (address + size - found.address), oldAttr,
        found.typeId⟩) := by
  rw [KMemoryRegion.stop] at hp
  rw [regionAt, parts, append_assoc, cons_append]
  by_cases hbefore : p < address
  · rw [if_pos hbefore, before, if_neg (by omega), cons_append, valueAt_cons, if_pos]
    · rfl
    · simp only [KMemoryRegion.stop]
      omega
  · rw [if_neg hbefore, (before_tiles oldAttr hin).valueAt_append (by omega), valueAt_cons]
    by_cases hnew : p < address + size
    · rw [if_pos hnew, if_pos]
      · rfl
      · simp only [new, KMemoryRegion.stop]
        omega
    · rw [if_neg hnew, if_neg, after, if_neg (by omega), cons_append, valueAt_cons, if_pos]
      · rfl
      · simp only [KMemoryRegion.stop]
        omega
      · simp only [new, KMemoryRegion.stop]
        omega

/-- The pair address that a part gets from its place in the region is the value that stands for none. -/
def Collides (found : KMemoryRegion) (start : Nat) : Prop :=
  found.pairAddress ≠ noPair ∧ found.pairAddress + UInt64.ofNat (start - found.address) = noPair

instance : Decidable (Collides found p) := inferInstanceAs (Decidable (_ ∧ _))

/-- A part translates as its region does, but for a collision. -/
theorem translate_part {start last : Nat} {attr : UInt32} (hstart : found.address ≤ start) (hp : start ≤ p) :
    (⟨start, last, newPair found.pairAddress (start - found.address), attr, typeId⟩ : KMemoryRegion).translate p =
      if Collides found start then none else found.translate p := by
  have hoffset : p - found.address = start - found.address + (p - start) := by omega
  unfold KMemoryRegion.translate newPair Collides
  by_cases hnone : found.pairAddress = noPair
  · simp [hnone]
  · rw [hoffset, UInt64.ofNat_add, ← UInt64.add_assoc]
    simp [hnone]

/-- **An insertion that fits**: the inserted addresses have the new attributes and the new type, and each address
    keeps its pair, unless the pair address of its new region comes to the value that stands for none. -/
theorem Partition.insert (htree : Partition first stop tree) (hin : first ≤ address ∧ address < stop)
    (hsize : 0 < size) (hat : tree.regionAt address = some found) (hfits : Fits found address size typeId oldAttr) :
    ∃ tree', tree.insert address size typeId newAttr oldAttr = some (true, tree') ∧ Partition first stop tree' ∧ ∀ p,
      kindAt tree' p = (if address ≤ p ∧ p < address + size then some (newAttr, typeId) else tree.kindAt p) ∧
      pairAt tree' p =
        if (address ≤ p ∧ p < address + size ∧ Collides found address) ∨
          (address + size ≤ p ∧ p ≤ found.lastAddress ∧ Collides found (address + size)) then some none
        else tree.pairAt p := by
  obtain ⟨xs, r, ys, rfl, hxs, hys, hhas, hfind, herase, hat'⟩ := htree.split hin
  obtain rfl : found = r := some.inj (hat.symm.trans (hat' address hhas))
  have hparts := parts_tiles typeId newAttr oldAttr hhas.1 hsize hfits.2.1
  refine ⟨_, insert_of_fits hfind herase hxs hys htree.stop_le hhas.1 hsize hfits,
    ⟨hxs.append (hparts.append hys), htree.stop_le⟩, fun p => ?_⟩
  have hfit : address + size ≤ found.lastAddress + 1 := hfits.2.1
  have hone : Covers found.address found.stop [found] :=
    ⟨rfl, Nat.lt_of_le_of_lt hhas.1 hhas.2, rfl⟩
  have hread : regionAt (xs ++ (parts found address size typeId newAttr oldAttr ++ ys)) p =
      if found.address ≤ p ∧ p < found.stop then
        regionAt (parts found address size typeId newAttr oldAttr ++ ys) p
      else regionAt (xs ++ found :: ys) p := hxs.valueAt_replace hparts hone hys
  rw [kindAt, pairAt, kindAt, pairAt, hread]
  by_cases hp : found.address ≤ p ∧ p < found.stop
  · have hlast : p ≤ found.lastAddress := Nat.le_of_lt_succ hp.2
    rw [if_pos hp, parts_at hsize hhas.1 hp, hat' p hp]
    simp only [map_some]
    by_cases hbefore : p < address
    · -- in front of the inserted range
      simp only [if_pos hbefore]
      rw [if_neg (by omega), if_neg (by omega), hfits.1]
      exact ⟨rfl, rfl⟩
    by_cases hnew : p < address + size
    · -- in it
      rw [if_neg hbefore, if_pos hnew, if_pos ⟨by omega, hnew⟩]
      refine ⟨rfl, ?_⟩
      have hpair : (new found address size typeId newAttr).translate p =
          if Collides found address then none else found.translate p := by
        rw [new]
        split
        · rename_i heq
          rw [if_neg fun h => h.1 (by simpa [heq] using h.2), ← heq]
          rfl
        · exact translate_part hhas.1 (by omega)
      rw [hpair]
      by_cases hcollides : Collides found address
      · rw [if_pos hcollides, if_pos (.inl ⟨by omega, hnew, hcollides⟩)]
      · rw [if_neg hcollides, if_neg fun h => hcollides (h.elim (·.2.2) fun h => absurd h.1 (by omega))]
    · -- behind it
      simp only [if_neg hbefore, if_neg hnew]
      rw [if_neg (by omega), hfits.1, translate_part (by omega) (by omega)]
      refine ⟨rfl, ?_⟩
      by_cases hcollides : Collides found (address + size)
      · rw [if_pos hcollides, if_pos (.inr ⟨by omega, hlast, hcollides⟩)]
      · rw [if_neg hcollides, if_neg fun h => hcollides (h.elim (fun h => absurd h.2.1 hnew) (·.2.2))]
  · rw [KMemoryRegion.stop] at hp
    rw [if_neg (show ¬(found.address ≤ p ∧ p < found.stop) from hp), if_neg (by omega), if_neg fun h => ?_]
    · exact ⟨rfl, rfl⟩
    · rcases h with h | h <;> omega

end Insert

/-! ## 5. Insertions one after another -/

/-- A call of `Insert`. -/
structure Insertion where
  address : Nat
  size : Nat
  typeId : UInt32
  newAttr : UInt32
  oldAttr : UInt32

/-- The call names an address of the range and a size that is not 0 and does not wrap. -/
def Insertion.Legal (first stop : Nat) (i : Insertion) : Prop :=
  (first ≤ i.address ∧ i.address < stop) ∧ 0 < i.size ∧ i.address + i.size - 1 < 2 ^ 64

instance {first stop : Nat} {i : Insertion} : Decidable (i.Legal first stop) := inferInstanceAs (Decidable (_ ∧ _))

/-- The attributes and the type of an address after a call. -/
def kindAfter (p : Nat) (kind : Option (UInt32 × UInt32)) (call : Insertion × Bool) : Option (UInt32 × UInt32) :=
  if call.2 ∧ call.1.address ≤ p ∧ p < call.1.address + call.1.size then some (call.1.newAttr, call.1.typeId)
  else kind

/-- No address of the tree has the value that stands for no pair as its pair. -/
def NoneIsFree (tree : KMemoryRegionTree) : Prop := ∀ p, tree.pairAt p ≠ some (some noPair)

section Runs

variable {tree : KMemoryRegionTree} {first stop : Nat} {i : Insertion}

/-- **One call** inserts exactly if the region of the address meets the condition. -/
theorem Partition.call (h : Partition first stop tree) (hi : i.Legal first stop) :
    ∃ found inserted tree', tree.regionAt i.address = some found ∧
      (inserted = true ↔ Fits found i.address i.size i.typeId i.oldAttr) ∧
      tree.insert i.address i.size i.typeId i.newAttr i.oldAttr = some (inserted, tree') ∧
      Partition first stop tree' ∧ (∀ p, kindAt tree' p = kindAfter p (tree.kindAt p) (i, inserted)) ∧
      (tree.NoneIsFree → ∀ p, pairAt tree' p = tree.pairAt p) := by
  obtain ⟨-, found, -, -, -, -, hhas, hfind, -, hat⟩ := h.split hi.1
  by_cases hfits : Fits found i.address i.size i.typeId i.oldAttr
  · obtain ⟨tree', hinsert, htree', hread⟩ := h.insert hi.1 hi.2.1 (hat _ hhas) hfits
    refine ⟨found, true, tree', hat _ hhas, iff_of_true rfl hfits, hinsert, htree',
      fun p => (hread p).1.trans ?_, fun hfree p => (hread p).2.trans (if_neg ?_)⟩
    · simp [kindAfter]
    · -- a part that collides begins at an address with the forbidden pair
      have hnone {start : Nat} (hstart : found.address ≤ start ∧ start < found.stop) : ¬Collides found start := by
        intro ⟨hpair, hcollides⟩
        refine hfree start ?_
        rw [pairAt, hat start hstart, map_some, KMemoryRegion.translate, if_neg hpair, hcollides]
      rintro (⟨-, -, hcollides⟩ | ⟨hle, hlast, hcollides⟩)
      · exact hnone hhas hcollides
      · exact hnone ⟨Nat.le_add_right_of_le hhas.1, Nat.lt_succ_of_le (Nat.le_trans hle hlast)⟩ hcollides
  · exact ⟨found, false, tree, hat _ hhas, iff_of_false Bool.false_ne_true hfits,
      insert_of_not_fits hfind hi.2.1 hi.2.2 hfits, h, fun p => rfl, fun _ _ => rfl⟩

end Runs

-- The last address of the region has the pair 2^64 - 1, and none once a region of its own begins there.
example : pairAt [⟨0, 4, 0xFFFFFFFFFFFFFFFB, 0, 0⟩] 4 = some (some 0xFFFFFFFFFFFFFFFF) ∧
    (insert [⟨0, 4, 0xFFFFFFFFFFFFFFFB, 0, 0⟩] 4 1 0 0 0).map (fun r => (r.1, pairAt r.2 4)) =
      some (true, some none) := by
  decide

end KMemoryRegionTree

end Yuzu.Kernel
