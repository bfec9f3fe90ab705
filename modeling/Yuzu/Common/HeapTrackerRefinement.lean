/-
  File:      Yuzu/Common/HeapTrackerRefinement.lean
  Subject:   HeapTracker keeps the meaning of its calls: each mapped address has the offset it was
             mapped with and its last permission, and the host buffer has the resident part.
-/
import Mathlib.Data.List.Pairwise
import Mathlib.Data.List.TakeWhile
import Yuzu.Common.HeapTracker

namespace Yuzu.Common

open Function

/-! ## 1. Nodes -/

/-- An address of a mapping. -/
def SeparateHeapMap.Holds (n : SeparateHeapMap) (a : Nat) : Prop :=
  n.vaddr ≤ a ∧ a < n.vaddr + n.size

/-- What a mapping maps an address to. -/
def SeparateHeapMap.Maps (n : SeparateHeapMap) (a : Nat) (x : Nat × MemoryPermission) : Prop :=
  n.Holds a ∧ (n.paddr + (a - n.vaddr), n.perm) = x

variable {lhs rhs : SeparateHeapMap}

theorem addrCompare_lt : addrCompare lhs rhs = .lt ↔ lhs.vaddr < rhs.vaddr := by
  unfold addrCompare
  split
  · next h => simp [h]
  · next h => split <;> simp [h]

theorem addrCompare_eq (hpos : 0 < rhs.size) : addrCompare lhs rhs = .eq ↔ rhs.Holds lhs.vaddr := by
  unfold addrCompare SeparateHeapMap.Holds
  split
  · next h => exact iff_of_false (by simp) (by omega)
  · next h =>
    split
    · next h' => exact iff_of_true rfl (by omega)
    · next h' => exact iff_of_false (by simp) (by omega)

theorem addrCompare_gt (hpos : 0 < rhs.size) :
    addrCompare lhs rhs = .gt ↔ rhs.vaddr + rhs.size ≤ lhs.vaddr := by
  unfold addrCompare
  split
  · next h => exact iff_of_false (by simp) (by omega)
  · next h =>
    split
    · next h' => exact iff_of_false (by simp) (by omega)
    · next h' => exact iff_of_true rfl (by omega)

namespace HeapTracker

variable {s s' : HeapTracker} {pages : PageMap} {i j a b offset : Nat} {n : SeparateHeapMap}

/-! ## 2. The trees -/

/-- The order of the resident mappings. -/
def ByTick (node : Nat → SeparateHeapMap) (i j : Nat) : Prop :=
  (node i).tick < (node j).tick ∨ ((node i).tick = (node j).tick ∧ (node i).vaddr < (node j).vaddr)

/-- **The trees are in order** and count their nodes; the mappings are disjoint. -/
structure Ordered (s : HeapTracker) : Prop where
  pos : ∀ i ∈ s.mappings, 0 < (s.node i).size
  sorted : s.mappings.Pairwise fun i j => (s.node i).vaddr + (s.node i).size ≤ (s.node j).vaddr
  fresh : ∀ i ∈ s.mappings, i < s.nextNode
  ticks : ∀ i ∈ s.mappings, (s.node i).tick < s.tick
  residents : ∀ i, i ∈ s.residentMappings ↔ i ∈ s.mappings ∧ (s.node i).isResident = true
  byTick : s.residentMappings.Pairwise (ByTick s.node)
  mapCount : s.mapCount = s.mappings.length
  residentMapCount : s.residentMapCount = s.residentMappings.length

theorem Ordered.beside (h : Ordered s) (hi : i ∈ s.mappings) (hj : j ∈ s.mappings) (hne : i ≠ j) :
    (s.node i).vaddr + (s.node i).size ≤ (s.node j).vaddr ∨
      (s.node j).vaddr + (s.node j).size ≤ (s.node i).vaddr := by
  let Beside i j := (s.node i).vaddr + (s.node i).size ≤ (s.node j).vaddr ∨
    (s.node j).vaddr + (s.node j).size ≤ (s.node i).vaddr
  have hbeside : s.mappings.Pairwise Beside := h.sorted.imp .inl
  have : Std.Symm Beside := ⟨fun _ _ => Or.symm⟩
  exact hbeside.forall hi hj hne

theorem Ordered.disjoint (h : Ordered s) (hi : i ∈ s.mappings) (hj : j ∈ s.mappings)
    (hia : (s.node i).Holds a) (hja : (s.node j).Holds a) : i = j := by
  by_contra hne
  have := h.beside hi hj hne
  unfold SeparateHeapMap.Holds at hia hja
  omega

theorem Ordered.mappings_nodup (h : Ordered s) : s.mappings.Nodup :=
  h.sorted.imp_of_mem fun hi _ hle heq => by
    subst heq
    have := h.pos _ hi
    omega

theorem Ordered.residents_nodup (h : Ordered s) : s.residentMappings.Nodup :=
  h.byTick.imp fun hlt heq => by
    subst heq
    rcases hlt with hlt | ⟨-, hlt⟩ <;> exact absurd hlt (Nat.lt_irrefl _)

theorem Ordered.nearest_some (h : Ordered s) (hfind : s.getNearestHeapMapLocked offset = some i) :
    i ∈ s.mappings ∧ (s.node i).Holds offset := by
  obtain ⟨hmem, heq⟩ := treeFind_some hfind
  exact ⟨hmem, (addrCompare_eq (h.pos i hmem)).mp heq⟩

theorem Ordered.nearest_none (h : Ordered s) (hfind : s.getNearestHeapMapLocked offset = none)
    (hi : i ∈ s.mappings) : ¬ (s.node i).Holds offset := fun hin =>
  treeFind_none hfind i hi ((addrCompare_eq (h.pos i hi)).mpr hin)

theorem Ordered.setNode (h : Ordered s) (hi : i ∈ s.mappings) (hvaddr : n.vaddr = (s.node i).vaddr)
    (hpos : 0 < n.size) (hsize : n.size ≤ (s.node i).size) (htick : n.tick = (s.node i).tick)
    (hresident : n.isResident = (s.node i).isResident) : Ordered (s.setNode i n) := by
  have hnode : ∀ j, ((s.setNode i n).node j).vaddr = (s.node j).vaddr ∧
      ((s.setNode i n).node j).size ≤ (s.node j).size ∧
      ((s.setNode i n).node j).tick = (s.node j).tick ∧
      ((s.setNode i n).node j).isResident = (s.node j).isResident := by
    intro j
    by_cases hj : j = i
    · subst hj
      simp only [HeapTracker.setNode, update_self]
      exact ⟨hvaddr, hsize, htick, hresident⟩
    · have hsame : (s.setNode i n).node j = s.node j := update_of_ne hj _ _
      rw [hsame]
      exact ⟨rfl, Nat.le_refl _, rfl, rfl⟩
  refine ⟨fun j hj => ?_, h.sorted.imp fun {j k} hle => ?_, h.fresh, fun j hj => ?_, fun j => ?_,
    h.byTick.imp fun {j k} hlt => ?_, h.mapCount, h.residentMapCount⟩
  · by_cases heq : j = i
    · simpa [HeapTracker.setNode, heq] using hpos
    · simpa [HeapTracker.setNode, update_of_ne heq] using h.pos j hj
  · have hj := hnode j
    have hk := hnode k
    omega
  · rw [(hnode j).2.2.1]
    exact h.ticks j hj
  · rw [(hnode j).2.2.2]
    exact h.residents j
  · unfold ByTick at *
    rwa [(hnode j).1, (hnode j).2.2.1, (hnode k).1, (hnode k).2.2.1]

/-- **A new node** beside the others is inserted in its place. -/
theorem Ordered.insertMapping (h : Ordered s) (hpos : 0 < n.size) (htick : n.tick < s.tick)
    (hbeside : ∀ i ∈ s.mappings, n.vaddr + n.size ≤ (s.node i).vaddr ∨
      (s.node i).vaddr + (s.node i).size ≤ n.vaddr) :
    (s.insertMapping n).mappings.Perm (s.nextNode :: s.mappings) ∧
      (n.isResident = false → Ordered (s.insertMapping n)) ∧
      (n.isResident = true → Ordered ((s.insertMapping n).insertResident s.nextNode)) := by
  have hcompare : ∀ i ∈ s.mappings, addrCompare n (s.node i) ≠ .eq ∧
      (addrCompare n (s.node i) = .lt → n.vaddr + n.size ≤ (s.node i).vaddr) ∧
      (addrCompare n (s.node i) = .gt → (s.node i).vaddr + (s.node i).size ≤ n.vaddr) := by
    intro i hi
    have hp := h.pos i hi
    rw [ne_eq, addrCompare_eq hp, addrCompare_lt, addrCompare_gt hp]
    unfold SeparateHeapMap.Holds
    have := hbeside i hi
    omega
  have hold : ∀ i ∈ s.mappings, Function.update s.node s.nextNode n i = s.node i := fun i hi =>
    update_of_ne (Nat.ne_of_lt (h.fresh i hi)) _ _
  have hperm : (s.insertMapping n).mappings.Perm (s.nextNode :: s.mappings) :=
    treeInsert_perm fun i hi => (hcompare i hi).1
  have hmem : ∀ i, i ∈ (s.insertMapping n).mappings ↔ i = s.nextNode ∨ i ∈ s.mappings := fun i =>
    hperm.mem_iff.trans List.mem_cons
  have hself : (s.insertMapping n).node s.nextNode = n := update_self ..
  have hsorted : (s.insertMapping n).mappings.Pairwise fun i j =>
      ((s.insertMapping n).node i).vaddr + ((s.insertMapping n).node i).size ≤
        ((s.insertMapping n).node j).vaddr := by
    refine treeInsert_pairwise (fun x y z hxy hyz => ?_) ?_ (fun i hi => (hcompare i hi).1)
      (fun i hi hlt => ?_) fun i hi hgt => ?_
    · omega
    · refine h.sorted.imp_of_mem fun {i j} hi hj hle => ?_
      simpa only [HeapTracker.insertMapping, hold i hi, hold j hj] using hle
    · rw [hself]
      simpa only [HeapTracker.insertMapping, hold i hi] using (hcompare i hi).2.1 hlt
    · rw [hself]
      simpa only [HeapTracker.insertMapping, hold i hi] using (hcompare i hi).2.2 hgt
  have hposAll : ∀ i ∈ (s.insertMapping n).mappings, 0 < ((s.insertMapping n).node i).size := by
    intro i hi
    rcases (hmem i).mp hi with rfl | hi
    · rwa [hself]
    · simpa only [HeapTracker.insertMapping, hold i hi] using h.pos i hi
  have hfresh : ∀ i ∈ (s.insertMapping n).mappings, i < (s.insertMapping n).nextNode := by
    intro i hi
    rcases (hmem i).mp hi with rfl | hi
    · exact Nat.lt_succ_self _
    · exact Nat.lt_succ_of_lt (h.fresh i hi)
  have hticks : ∀ i ∈ (s.insertMapping n).mappings, ((s.insertMapping n).node i).tick < s.tick := by
    intro i hi
    rcases (hmem i).mp hi with rfl | hi
    · rwa [hself]
    · simpa only [HeapTracker.insertMapping, hold i hi] using h.ticks i hi
  have hcount : (s.insertMapping n).mapCount = (s.insertMapping n).mappings.length := by
    have hlen := hperm.length_eq
    rw [List.length_cons] at hlen
    have hold := h.mapCount
    change s.mapCount + 1 = _
    omega
  have hresMem : ∀ i ∈ s.residentMappings, i ∈ s.mappings := fun i hi => ((h.residents i).mp hi).1
  have hbyTick : s.residentMappings.Pairwise (ByTick (s.insertMapping n).node) := by
    refine h.byTick.imp_of_mem fun {i j} hi hj hlt => ?_
    simpa only [ByTick, HeapTracker.insertMapping, hold i (hresMem i hi), hold j (hresMem j hj)] using hlt
  refine ⟨hperm, fun hres => ?_, fun hres => ?_⟩
  · refine ⟨hposAll, hsorted, hfresh, hticks, fun i => ?_, hbyTick, hcount, h.residentMapCount⟩
    rw [hmem i]
    refine (h.residents i).trans ⟨fun ⟨hi, hr⟩ => ⟨.inr hi, ?_⟩, fun ⟨hi, hr⟩ => ?_⟩
    · simpa only [HeapTracker.insertMapping, hold i hi] using hr
    · rcases hi with rfl | hi
      · rw [hself, hres] at hr
        cases hr
      · exact ⟨hi, by simpa only [HeapTracker.insertMapping, hold i hi] using hr⟩
  · -- the resident mappings get it too
    have htickCompare : ∀ j ∈ s.residentMappings,
        tickCompare ((s.insertMapping n).node s.nextNode) ((s.insertMapping n).node j) ≠ .eq ∧
        (tickCompare ((s.insertMapping n).node s.nextNode) ((s.insertMapping n).node j) = .lt →
          ByTick (s.insertMapping n).node s.nextNode j) ∧
        (tickCompare ((s.insertMapping n).node s.nextNode) ((s.insertMapping n).node j) = .gt →
          ByTick (s.insertMapping n).node j s.nextNode) := by
      intro j hj
      have hjm := hresMem j hj
      obtain ⟨hne, hlt, hgt⟩ := hcompare j hjm
      have hp := h.pos j hjm
      unfold ByTick
      rw [hself]
      simp only [HeapTracker.insertMapping, hold j hjm]
      unfold tickCompare
      split
      · next ht => exact ⟨by simp, fun _ => .inl ht, by simp⟩
      · next ht =>
        split
        · next ht' => exact ⟨by simp, by simp, fun _ => .inl ht'⟩
        · next ht' =>
          refine ⟨hne, fun hc => .inr ⟨by omega, ?_⟩, fun hc => .inr ⟨by omega, ?_⟩⟩
          · exact addrCompare_lt.mp hc
          · have := (addrCompare_gt hp).mp hc
            omega
    have hpermR : ((s.insertMapping n).insertResident s.nextNode).residentMappings.Perm
        (s.nextNode :: s.residentMappings) :=
      treeInsert_perm fun j hj => (htickCompare j hj).1
    refine ⟨hposAll, hsorted, hfresh, hticks, fun i => ?_, ?_, hcount, ?_⟩
    · refine (hpermR.mem_iff.trans List.mem_cons).trans ?_
      have hmem' : i ∈ ((s.insertMapping n).insertResident s.nextNode).mappings ↔
          i = s.nextNode ∨ i ∈ s.mappings := hmem i
      rw [hmem', h.residents i]
      constructor
      · rintro (rfl | ⟨hi, hr⟩)
        · exact ⟨.inl rfl, by rw [← hres]; exact congrArg _ hself⟩
        · refine ⟨.inr hi, ?_⟩
          simpa only [HeapTracker.insertResident, HeapTracker.insertMapping, hold i hi] using hr
      · rintro ⟨rfl | hi, hr⟩
        · exact .inl rfl
        · refine .inr ⟨hi, ?_⟩
          simpa only [HeapTracker.insertResident, HeapTracker.insertMapping, hold i hi] using hr
    · refine treeInsert_pairwise (fun x y z hxy hyz => ?_) hbyTick
        (fun j hj => (htickCompare j hj).1) (fun j hj => (htickCompare j hj).2.1)
        fun j hj => (htickCompare j hj).2.2
      unfold ByTick at *
      omega
    · have hlen := hpermR.length_eq
      rw [List.length_cons] at hlen
      have hold := h.residentMapCount
      change s.residentMapCount + 1 = _
      omega

/-! ## 3. The views -/

/-- **The tracker keeps the pages**: its mappings give each address what the calls mean, and the host
    buffer has the resident ones. -/
structure Inv (s : HeapTracker) (pages : PageMap) : Prop where
  ordered : Ordered s
  pages : ∀ a x, pages a = some x ↔ ∃ i ∈ s.mappings, (s.node i).Maps a x
  buffer : ∀ a x, s.buffer a = some x ↔ ∃ i ∈ s.mappings, (s.node i).isResident = true ∧ (s.node i).Maps a x

theorem Inv.initial : Inv {} fun _ => none where
  ordered :=
    { pos := fun _ h => nomatch h
      sorted := .nil
      fresh := fun _ h => nomatch h
      ticks := fun _ h => nomatch h
      residents := fun _ => ⟨fun h => (nomatch h), fun h => nomatch h.1⟩
      byTick := .nil
      mapCount := rfl
      residentMapCount := rfl }
  pages _ _ := ⟨fun h => (nomatch h), fun ⟨_, h, _⟩ => nomatch h⟩
  buffer _ _ := ⟨fun h => (nomatch h), fun ⟨_, h, _⟩ => nomatch h⟩

/-- No mapping goes over an address. -/
def Boundary (s : HeapTracker) (b : Nat) : Prop :=
  ∀ i ∈ s.mappings, ¬ ((s.node i).vaddr < b ∧ b < (s.node i).vaddr + (s.node i).size)

/-! ## 4. Splitting -/

/-- What holds of a node or of the two halves of another. -/
theorem exists_split {P : SeparateHeapMap → Prop} {node : Nat → SeparateHeapMap} {l l' : List Nat}
    {left right : Nat} {nl nr : SeparateHeapMap} (hl' : ∀ i, i ∈ l' ↔ i = right ∨ i ∈ l)
    (hleft : left ∈ l) (hright : right ∉ l) (hP : P (node left) ↔ P nl ∨ P nr) :
    (∃ i ∈ l', P (Function.update (Function.update node left nl) right nr i)) ↔ ∃ i ∈ l, P (node i) := by
  have hne : left ≠ right := fun heq => hright (heq ▸ hleft)
  constructor
  · rintro ⟨i, hi, hPi⟩
    by_cases hir : i = right
    · rw [hir, update_self] at hPi
      exact ⟨left, hleft, hP.mpr (.inr hPi)⟩
    · rw [update_of_ne hir] at hPi
      have hi := ((hl' i).mp hi).resolve_left hir
      by_cases hil : i = left
      · rw [hil, update_self] at hPi
        exact ⟨left, hleft, hP.mpr (.inl hPi)⟩
      · rw [update_of_ne hil] at hPi
        exact ⟨i, hi, hPi⟩
  · rintro ⟨i, hi, hPi⟩
    by_cases hil : i = left
    · rw [hil] at hPi
      rcases hP.mp hPi with hPl | hPr
      · refine ⟨left, (hl' left).mpr (.inr hleft), ?_⟩
        rwa [update_of_ne hne, update_self]
      · refine ⟨right, (hl' right).mpr (.inl rfl), ?_⟩
        rwa [update_self]
    · have hir : i ≠ right := fun heq => hright (heq ▸ hi)
      refine ⟨i, (hl' i).mpr (.inr hi), ?_⟩
      rwa [update_of_ne hir, update_of_ne hil]

theorem maps_split {n nl nr : SeparateHeapMap} {k : Nat} {x : Nat × MemoryPermission}
    (hk : k ≤ n.size) (hl : nl = { n with size := k })
    (hr : nr = { n with vaddr := n.vaddr + k, paddr := n.paddr + k, size := n.size - k }) :
    n.Maps a x ↔ nl.Maps a x ∨ nr.Maps a x := by
  subst hl hr
  unfold SeparateHeapMap.Maps SeparateHeapMap.Holds
  by_cases hin : n.vaddr ≤ a ∧ a < n.vaddr + n.size
  · by_cases hlow : a < n.vaddr + k
    · have hnot : ¬ (n.vaddr + k ≤ a ∧ a < n.vaddr + k + (n.size - k)) := by omega
      simp only [hin, hlow, hnot, and_self, true_and, false_and, or_false]
    · have hhigh : n.vaddr + k ≤ a ∧ a < n.vaddr + k + (n.size - k) := by omega
      have heq : n.paddr + k + (a - (n.vaddr + k)) = n.paddr + (a - n.vaddr) := by omega
      simp only [hin, hlow, hhigh, heq, and_self, and_false, true_and, false_and, false_or]
  · have hlow : ¬ (n.vaddr ≤ a ∧ a < n.vaddr + k) := by omega
    have hhigh : ¬ (n.vaddr + k ≤ a ∧ a < n.vaddr + k + (n.size - k)) := by omega
    simp only [hin, hlow, hhigh, false_and, or_self]

/-- The left half of a node. -/
def leftHalf (n : SeparateHeapMap) (k : Nat) : SeparateHeapMap := { n with size := k }

/-- The right half of a node. -/
def rightHalf (n : SeparateHeapMap) (k : Nat) : SeparateHeapMap :=
  { n with vaddr := n.vaddr + k, paddr := n.paddr + k, size := n.size - k }

/-- What `SplitHeapMapLocked` does with a mapping that goes over the address. -/
theorem splitHeapMapLocked_eq {left k : Nat}
    (hfind : s.getNearestHeapMapLocked ((s.node left).vaddr + k) = some left) (hk : 0 < k) :
    s.splitHeapMapLocked ((s.node left).vaddr + k) =
      if (rightHalf (s.node left) k).isResident = true then
        ((s.setNode left (leftHalf (s.node left) k)).insertMapping
          (rightHalf (s.node left) k)).insertResident s.nextNode
      else (s.setNode left (leftHalf (s.node left) k)).insertMapping (rightHalf (s.node left) k) := by
  unfold splitHeapMapLocked
  rw [hfind]
  dsimp only
  rw [if_neg (by omega), Nat.add_sub_cancel_left]
  have hself : (s.setNode left { s.node left with size := k }).node left =
      { s.node left with size := k } := update_self ..
  rw [hself]
  have hnew : ((s.setNode left (leftHalf (s.node left) k)).insertMapping
      (rightHalf (s.node left) k)).node s.nextNode = rightHalf (s.node left) k :=
    update_self ..
  change (if (((s.setNode left (leftHalf (s.node left) k)).insertMapping
      (rightHalf (s.node left) k)).node s.nextNode).isResident = true then _ else _) = _
  rw [hnew]
  rfl

/-- **`SplitHeapMapLocked`**: no mapping goes over the address, and nothing else is seen of it. -/
theorem Inv.split (h : Inv s pages) : Inv (s.splitHeapMapLocked offset) pages ∧
    Boundary (s.splitHeapMapLocked offset) offset ∧
    ∀ b, Boundary s b → Boundary (s.splitHeapMapLocked offset) b := by
  cases hfind : s.getNearestHeapMapLocked offset with
  | none =>
    have heq : s.splitHeapMapLocked offset = s := by rw [splitHeapMapLocked, hfind]
    rw [heq]
    refine ⟨h, fun i hi hin => h.ordered.nearest_none hfind hi ⟨?_, hin.2⟩, fun b hb => hb⟩
    exact Nat.le_of_lt hin.1
  | some left =>
    obtain ⟨hleft, hhold⟩ := h.ordered.nearest_some hfind
    by_cases hstart : (s.node left).vaddr = offset
    · have heq : s.splitHeapMapLocked offset = s := by
        rw [splitHeapMapLocked, hfind]
        exact if_pos hstart
      rw [heq]
      refine ⟨h, fun i hi hin => ?_, fun b hb => hb⟩
      have heq := h.ordered.disjoint hi hleft ⟨Nat.le_of_lt hin.1, hin.2⟩ hhold
      rw [heq] at hin
      omega
    obtain ⟨hle, hltEnd⟩ := hhold
    obtain ⟨k, rfl⟩ : ∃ k, offset = (s.node left).vaddr + k := Nat.exists_eq_add_of_le hle
    have hk0 : 0 < k := by omega
    have hk1 : k < (s.node left).size := by omega
    have hordered := h.ordered.setNode (n := leftHalf (s.node left) k) hleft rfl hk0
      (Nat.le_of_lt hk1) rfl rfl
    obtain ⟨hperm, hplain, hresident⟩ := hordered.insertMapping (n := rightHalf (s.node left) k)
      (Nat.sub_pos_of_lt hk1) (h.ordered.ticks left hleft) fun i hi => by
        by_cases hil : i = left
        · rw [hil]
          exact .inr (Nat.le_of_eq (by simp [HeapTracker.setNode, leftHalf, rightHalf]))
        · have hsame : (s.setNode left (leftHalf (s.node left) k)).node i = s.node i :=
            update_of_ne hil _ _
          rw [hsame, rightHalf]
          dsimp only
          rcases h.ordered.beside hleft hi (Ne.symm hil) with hb | hb
          · exact .inl (by omega)
          · exact .inr (by omega)
    have hfresh : s.nextNode ∉ s.mappings := fun hin => Nat.lt_irrefl _ (h.ordered.fresh _ hin)
    have hmem : ∀ i, i ∈ ((s.setNode left (leftHalf (s.node left) k)).insertMapping
        (rightHalf (s.node left) k)).mappings ↔ i = s.nextNode ∨ i ∈ s.mappings := fun i =>
      hperm.mem_iff.trans List.mem_cons
    have hpages : ∀ a x, (s.node left).Maps a x ↔ (leftHalf (s.node left) k).Maps a x ∨
        (rightHalf (s.node left) k).Maps a x := fun a x =>
      maps_split (Nat.le_of_lt hk1) rfl rfl
    have hview : ∀ t, Ordered t → t.mappings = ((s.setNode left (leftHalf (s.node left) k)).insertMapping
          (rightHalf (s.node left) k)).mappings →
        t.node = Function.update (Function.update s.node left (leftHalf (s.node left) k)) s.nextNode
          (rightHalf (s.node left) k) →
        t.buffer = s.buffer → Inv t pages ∧ Boundary t ((s.node left).vaddr + k) ∧
          ∀ b, Boundary s b → Boundary t b := by
      intro t ht hmaps hnode hbuffer
      have hkeep : ∀ b, (b = (s.node left).vaddr + k ∨ Boundary s b) → Boundary t b := by
        intro b hb i hi
        rw [hmaps, hmem i] at hi
        have hbl : b = (s.node left).vaddr + k ∨
            ¬ ((s.node left).vaddr < b ∧ b < (s.node left).vaddr + (s.node left).size) :=
          hb.imp_right fun hb => hb left hleft
        rw [hnode]
        by_cases hir : i = s.nextNode
        · rw [hir, update_self, rightHalf]
          dsimp only
          omega
        rw [update_of_ne hir]
        by_cases hil : i = left
        · rw [hil, update_self, leftHalf]
          dsimp only
          omega
        rw [update_of_ne hil]
        have him := hi.resolve_left hir
        rcases hb with rfl | hb
        · have := h.ordered.beside hleft him (Ne.symm hil)
          omega
        · exact hb i him
      refine ⟨⟨ht, fun a x => ?_, fun a x => ?_⟩, hkeep _ (.inl rfl), fun b hb => hkeep b (.inr hb)⟩
      · rw [h.pages a x, hmaps, hnode]
        exact (exists_split (P := fun n => n.Maps a x) hmem hleft hfresh (hpages a x)).symm
      · rw [hbuffer, h.buffer a x, hmaps, hnode]
        refine (exists_split (P := fun n => n.isResident = true ∧ n.Maps a x) hmem hleft hfresh ?_).symm
        rw [hpages a x, and_or_left]
        rfl
    rw [splitHeapMapLocked_eq hfind hk0]
    split
    · next hres => exact hview _ (hresident hres) rfl rfl rfl
    · next hres => exact hview _ (hplain (by simpa using hres)) rfl rfl rfl

/-! ## 5. Residence -/

theorem exists_setNode (P : SeparateHeapMap → Prop) (node : Nat → SeparateHeapMap)
    (n : SeparateHeapMap) {l : List Nat} (hi : i ∈ l) : (∃ j ∈ l, P (Function.update node i n j)) ↔
      P n ∨ ∃ j ∈ l, j ≠ i ∧ P (node j) := by
  constructor
  · rintro ⟨j, hj, hP⟩
    by_cases hji : j = i
    · rw [hji, update_self] at hP
      exact .inl hP
    · rw [update_of_ne hji] at hP
      exact .inr ⟨j, hj, hji, hP⟩
  · rintro (hP | ⟨j, hj, hji, hP⟩)
    · refine ⟨i, hi, ?_⟩
      rwa [update_self]
    · refine ⟨j, hj, ?_⟩
      rwa [update_of_ne hji]

theorem exists_self (P : SeparateHeapMap → Prop) (node : Nat → SeparateHeapMap) {l : List Nat}
    (hi : i ∈ l) : (∃ j ∈ l, P (node j)) ↔ P (node i) ∨ ∃ j ∈ l, j ≠ i ∧ P (node j) := by
  rw [← exists_setNode P node (node i) hi, update_eq_self]

/-- What a round of eviction leaves. -/
def evict (s : HeapTracker) (i : Nat) : HeapTracker :=
  { s.setNode i { s.node i with isResident := false } with
    buffer := HostMemory.unmap s.buffer (s.node i).vaddr (s.node i).size
    residentMapCount := s.residentMapCount - 1
    residentMappings := s.residentMappings.erase i }

theorem evictLoop_cons {k : Nat} {rest : List Nat} :
    s.evictLoop (k + 1) (i :: rest) = (s.evict i).evictLoop k rest := by
  have hself : (s.setNode i { s.node i with isResident := false }).node i =
      { s.node i with isResident := false } := update_self ..
  rw [evictLoop]
  rw [hself]
  rfl

/-- **Eviction**: the node is tracked but no longer in the host buffer. -/
theorem Inv.evict (h : Inv s pages) {rest : List Nat} (hres : s.residentMappings = i :: rest) :
    Inv (s.evict i) pages ∧ (s.evict i).residentMappings = rest := by
  have hmemRes : i ∈ s.residentMappings := hres ▸ List.mem_cons_self
  obtain ⟨hi, hresident⟩ := (h.ordered.residents i).mp hmemRes
  have hrest : (s.evict i).residentMappings = rest := by
    change s.residentMappings.erase i = rest
    rw [hres, List.erase_cons_head]
  have hnodup := h.ordered.residents_nodup
  have hbyTick := h.ordered.byTick
  rw [hres] at hnodup hbyTick
  have hnot := (List.nodup_cons.mp hnodup).1
  have hnode : ∀ j, j ≠ i → (s.evict i).node j = s.node j := fun j hj => update_of_ne hj _ _
  have hnodeI : (s.evict i).node i = { s.node i with isResident := false } :=
    update_self ..
  have hsame : ∀ j, ((s.evict i).node j).vaddr = (s.node j).vaddr ∧
      ((s.evict i).node j).size = (s.node j).size ∧
      ((s.evict i).node j).tick = (s.node j).tick := by
    intro j
    by_cases hj : j = i
    · rw [hj, hnodeI]
      exact ⟨rfl, rfl, rfl⟩
    · rw [hnode j hj]
      exact ⟨rfl, rfl, rfl⟩
  refine ⟨⟨⟨fun j hj => ?_, h.ordered.sorted.imp fun {j k} hle => ?_, h.ordered.fresh, fun j hj => ?_,
    fun j => ?_, ?_, h.ordered.mapCount, ?_⟩, fun a x => ?_, fun a x => ?_⟩, hrest⟩
  · rw [(hsame j).2.1]
    exact h.ordered.pos j hj
  · rwa [(hsame j).1, (hsame j).2.1, (hsame k).1]
  · rw [(hsame j).2.2]
    exact h.ordered.ticks j hj
  · rw [hrest]
    have hj := h.ordered.residents j
    rw [hres] at hj
    by_cases hji : j = i
    · rw [hji, hnodeI]
      exact iff_of_false hnot (by simp)
    · rw [hnode j hji]
      refine Iff.trans ?_ hj
      simp [hji]
  · rw [hrest]
    refine (List.pairwise_cons.mp hbyTick).2.imp fun {j k} hlt => ?_
    unfold ByTick at *
    rwa [(hsame j).1, (hsame j).2.2, (hsame k).1, (hsame k).2.2]
  · have hcount := h.ordered.residentMapCount
    rw [hres, List.length_cons] at hcount
    rw [hrest]
    change s.residentMapCount - 1 = _
    omega
  · rw [h.pages a x, exists_self (fun n => n.Maps a x) s.node hi]
    exact (exists_setNode (fun n => n.Maps a x) s.node { s.node i with isResident := false } hi).symm
  · have hbuffer := h.buffer a x
    rw [exists_self (fun n => n.isResident = true ∧ n.Maps a x) s.node hi] at hbuffer
    have hafter := exists_setNode (fun n => n.isResident = true ∧ n.Maps a x) s.node
      { s.node i with isResident := false } hi
    refine Iff.trans ?_ hafter.symm
    change HostMemory.unmap s.buffer (s.node i).vaddr (s.node i).size a = some x ↔ _
    unfold HostMemory.unmap
    split
    · next hin =>
      -- no other mapping has the address
      refine iff_of_false (by simp) ?_
      rintro (⟨hfalse, -⟩ | ⟨j, hj, hji, -, hmaps⟩)
      · cases hfalse
      · exact hji (h.ordered.disjoint hj hi hmaps.1 hin)
    · next hout =>
      rw [hbuffer]
      constructor
      · rintro (⟨-, hmaps⟩ | hother)
        · exact absurd hmaps.1 hout
        · exact .inr hother
      · rintro (⟨hfalse, -⟩ | hother)
        · cases hfalse
        · exact .inr hother

theorem Inv.evictLoop (h : Inv s pages) (k : Nat) : Inv (s.evictLoop k s.residentMappings) pages ∧
      (s.evictLoop k s.residentMappings).residentMappings = s.residentMappings.drop k ∧
      (s.evictLoop k s.residentMappings).mappings = s.mappings ∧
      ∀ j, ((s.evictLoop k s.residentMappings).node j).vaddr = (s.node j).vaddr ∧
        ((s.evictLoop k s.residentMappings).node j).size = (s.node j).size := by
  induction k generalizing s with
  | zero =>
    exact ⟨h, rfl, rfl, fun _ => ⟨rfl, rfl⟩⟩
  | succ k ih =>
    cases hres : s.residentMappings with
    | nil => exact ⟨h, hres, rfl, fun _ => ⟨rfl, rfl⟩⟩
    | cons i rest =>
      obtain ⟨hinv, hrest⟩ := h.evict hres
      have ih := ih hinv
      rw [hrest] at ih
      rw [evictLoop_cons, List.drop_succ_cons]
      obtain ⟨hinv', hdrop, hmaps, hnode⟩ := ih
      refine ⟨hinv', hdrop, hmaps, fun j => ?_⟩
      rw [(hnode j).1, (hnode j).2]
      by_cases hj : j = i
      · subst hj
        simp [HeapTracker.evict, HeapTracker.setNode]
      · simp [HeapTracker.evict, HeapTracker.setNode, hj]

/-- A mapping that is put into the host buffer. -/
def makeResident (s : HeapTracker) (i : Nat) : HeapTracker :=
  { s with
    node := Function.update s.node i { s.node i with tick := s.tick, isResident := true }
    tick := s.tick + 1
    buffer := HostMemory.map s.buffer (s.node i).vaddr (s.node i).paddr (s.node i).size
      (s.node i).perm
    residentMapCount := s.residentMapCount + 1
    residentMappings := s.residentMappings ++ [i] }

/-- **What `DeferredMapSeparateHeap` does** with a mapping that is not resident. -/
theorem deferredMap_eq {maxCount : Int} (h : Ordered s)
    (hfind : s.getNearestHeapMapLocked offset = some i) (hres : (s.node i).isResident = false) :
    s.deferredMapSeparateHeap maxCount offset = (true, if s.residentMapCount > maxCount then
      (s.makeResident i).rebuildSeparateHeapAddressSpace maxCount else s.makeResident i) := by
  have hlast : treeInsert (fun j => tickCompare
      (Function.update s.node i { s.node i with tick := s.tick, isResident := true } i)
      (Function.update s.node i { s.node i with tick := s.tick, isResident := true } j)) i
      s.residentMappings = s.residentMappings ++ [i] := by
    refine treeInsert_last fun j hj => ?_
    obtain ⟨hjm, hjr⟩ := (h.residents j).mp hj
    have hji : j ≠ i := by
      rintro rfl
      rw [hres] at hjr
      cases hjr
    have hlt := h.ticks j hjm
    rw [update_self, update_of_ne hji, tickCompare]
    rw [if_neg (Nat.not_lt.mpr (Nat.le_of_lt hlt)), if_pos hlt]
  have hinsert : ({ s with
      node := Function.update (Function.update s.node i { s.node i with tick := s.tick }) i
        { s.node i with tick := s.tick, isResident := true }
      tick := s.tick + 1
      buffer := HostMemory.map s.buffer (s.node i).vaddr (s.node i).paddr (s.node i).size
        (s.node i).perm } : HeapTracker).insertResident i = s.makeResident i := by
    rw [update_idem, makeResident, insertResident]
    rw [hlast]
  rw [deferredMapSeparateHeap, hfind]
  dsimp only
  rw [if_neg (by simp [hres])]
  simp only [HeapTracker.setNode, update_self, decide_eq_true_eq]
  exact congrArg (fun t : HeapTracker => (true, if s.residentMapCount > maxCount then
    t.rebuildSeparateHeapAddressSpace maxCount else t)) hinsert

/-- **A mapping becomes resident.** -/
theorem Inv.makeResident (h : Inv s pages) (hi : i ∈ s.mappings)
    (hres : (s.node i).isResident = false) : Inv (s.makeResident i) pages := by
  have hnode : ∀ j, j ≠ i → (s.makeResident i).node j = s.node j :=
    fun j hj => update_of_ne hj _ _
  have hnodeI : (s.makeResident i).node i =
      { s.node i with tick := s.tick, isResident := true } := update_self ..
  have hsame : ∀ j, ((s.makeResident i).node j).vaddr = (s.node j).vaddr ∧
      ((s.makeResident i).node j).size = (s.node j).size := by
    intro j
    by_cases hj : j = i
    · rw [hj, hnodeI]
      exact ⟨rfl, rfl⟩
    · rw [hnode j hj]
      exact ⟨rfl, rfl⟩
  have hother : ∀ j ∈ s.residentMappings, j ≠ i := by
    rintro j hj rfl
    have := ((h.ordered.residents j).mp hj).2
    rw [hres] at this
    cases this
  refine ⟨⟨fun j hj => ?_, h.ordered.sorted.imp fun {j k} hle => ?_, h.ordered.fresh, fun j hj => ?_,
    fun j => ?_, ?_, h.ordered.mapCount, ?_⟩, fun a x => ?_, fun a x => ?_⟩
  · rw [(hsame j).2]
    exact h.ordered.pos j hj
  · rwa [(hsame j).1, (hsame j).2, (hsame k).1]
  · by_cases hji : j = i
    · rw [hji, hnodeI]
      exact Nat.lt_succ_self _
    · rw [hnode j hji]
      exact Nat.lt_succ_of_lt (h.ordered.ticks j hj)
  · change j ∈ s.residentMappings ++ [i] ↔ j ∈ s.mappings ∧ _
    rw [List.mem_append, List.mem_singleton, h.ordered.residents j]
    by_cases hji : j = i
    · rw [hji, hnodeI]
      exact iff_of_true (.inr rfl) ⟨hi, rfl⟩
    · rw [hnode j hji]
      simp [hji]
  · change (s.residentMappings ++ [i]).Pairwise _
    refine List.pairwise_append.mpr ⟨h.ordered.byTick.imp_of_mem fun {j k} hj hk hlt => ?_,
      List.pairwise_singleton _ i, fun j hj k hk => ?_⟩
    · unfold ByTick at *
      rwa [hnode j (hother j hj), hnode k (hother k hk)]
    · rw [List.mem_singleton.mp hk]
      refine .inl ?_
      rw [hnode j (hother j hj), hnodeI]
      exact h.ordered.ticks j ((h.ordered.residents j).mp hj).1
  · have hcount := h.ordered.residentMapCount
    change s.residentMapCount + 1 = ((s.residentMappings ++ [i]).length : Int)
    rw [List.length_append, List.length_singleton]
    omega
  · rw [h.pages a x, exists_self (fun n => n.Maps a x) s.node hi]
    exact (exists_setNode (fun n => n.Maps a x) s.node
      { s.node i with tick := s.tick, isResident := true } hi).symm
  · have hbuffer := h.buffer a x
    rw [exists_self (fun n => n.isResident = true ∧ n.Maps a x) s.node hi] at hbuffer
    have hafter := exists_setNode (fun n => n.isResident = true ∧ n.Maps a x) s.node
      { s.node i with tick := s.tick, isResident := true } hi
    refine Iff.trans ?_ hafter.symm
    change HostMemory.map s.buffer (s.node i).vaddr (s.node i).paddr (s.node i).size
      (s.node i).perm a = some x ↔ _
    unfold HostMemory.map
    split
    · next hin =>
      constructor
      · intro heq
        exact .inl ⟨rfl, hin, Option.some.inj heq⟩
      · rintro (⟨-, -, heq⟩ | ⟨j, hj, hji, -, hmaps⟩)
        · exact congrArg some heq
        · exact absurd (h.ordered.disjoint hj hi hmaps.1 hin) hji
    · next hout =>
      rw [hbuffer]
      constructor
      · rintro (⟨-, hmaps⟩ | hother)
        · exact absurd hmaps.1 hout
        · exact .inr hother
      · rintro (⟨-, hmaps⟩ | hother)
        · exact absurd hmaps.1 hout
        · exact .inr hother

/-- **`DeferredMapSeparateHeap`** keeps the pages, and where it answers true the address is resident:
    what was put in last is evicted last, and at least one mapping stays. -/
theorem Inv.deferredMap (h : Inv s pages) {maxCount : Int} (hmax : 2 ≤ maxCount) :
    Inv (s.deferredMapSeparateHeap maxCount offset).2 pages ∧
      ((s.deferredMapSeparateHeap maxCount offset).1 = true →
        ∃ i ∈ (s.deferredMapSeparateHeap maxCount offset).2.mappings,
          ((s.deferredMapSeparateHeap maxCount offset).2.node i).isResident = true ∧
          ((s.deferredMapSeparateHeap maxCount offset).2.node i).Holds offset) := by
  cases hfind : s.getNearestHeapMapLocked offset with
  | none =>
    have heq : s.deferredMapSeparateHeap maxCount offset = (false, s) := by
      rw [deferredMapSeparateHeap, hfind]
    rw [heq]
    exact ⟨h, fun hfalse => nomatch hfalse⟩
  | some i =>
    obtain ⟨hi, hhold⟩ := h.ordered.nearest_some hfind
    cases hres : (s.node i).isResident with
    | true =>
      have heq : s.deferredMapSeparateHeap maxCount offset = (false, s) := by
        rw [deferredMapSeparateHeap, hfind]
        exact if_pos hres
      rw [heq]
      exact ⟨h, fun hfalse => nomatch hfalse⟩
    | false =>
      rw [deferredMap_eq h.ordered hfind hres]
      have hinv := h.makeResident hi hres
      have hnodeI : (s.makeResident i).node i =
        { s.node i with tick := s.tick, isResident := true } := update_self ..
      split
      · next hmany =>
        obtain ⟨hinv', hdrop, hmaps, hnode⟩ := hinv.evictLoop ((s.makeResident i).residentMapCount -
            min (s.makeResident i).residentMapCount maxCount / 2).toNat
        refine ⟨hinv', fun _ => ?_⟩
        have hstay : i ∈ ((s.makeResident i).rebuildSeparateHeapAddressSpace
            maxCount).residentMappings := by
          rw [rebuildSeparateHeapAddressSpace, hdrop]
          change i ∈ (s.residentMappings ++ [i]).drop _
          have hcount := h.ordered.residentMapCount
          have hcount' : (s.makeResident i).residentMapCount = s.residentMapCount + 1 := rfl
          rw [List.drop_append_of_le_length]
          · exact List.mem_append_right _ (List.mem_singleton_self i)
          · omega
        obtain ⟨him, hir⟩ := (hinv'.ordered.residents i).mp hstay
        refine ⟨i, him, hir, ?_⟩
        unfold SeparateHeapMap.Holds at *
        rw [rebuildSeparateHeapAddressSpace, (hnode i).1, (hnode i).2, hnodeI]
        exact hhold
      · refine ⟨hinv, fun _ => ⟨i, hi, ?_⟩⟩
        rw [hnodeI]
        exact ⟨rfl, hhold⟩

/-! ## 6. Mapping -/

variable {virtualOffset hostOffset length size cur stop : Nat} {perm : MemoryPermission} {maxCount : Int}

theorem Inv.not_holds (h : Inv s pages) (hnone : pages a = none) (hi : i ∈ s.mappings) :
    ¬ (s.node i).Holds a := by
  intro hin
  have hsome := (h.pages a _).mpr ⟨i, hi, hin, rfl⟩
  rw [hnone] at hsome
  cases hsome

theorem Inv.holds (h : Inv s pages) (hne : pages a ≠ none) : ∃ i ∈ s.mappings, (s.node i).Holds a := by
  obtain ⟨x, hx⟩ := Option.ne_none_iff_exists'.mp hne
  obtain ⟨i, hi, hmaps⟩ := (h.pages a x).mp hx
  exact ⟨i, hi, hmaps.1⟩

/-- **`Map`** of a free range. -/
theorem Inv.map (h : Inv s pages) (hmax : 2 ≤ maxCount)
    (hallowed : (HeapCall.map virtualOffset hostOffset length perm).Allowed pages) :
    Inv (s.map maxCount virtualOffset hostOffset length perm)
      (HostMemory.map pages virtualOffset hostOffset length perm) := by
  obtain ⟨hlen, hfree⟩ := hallowed
  obtain ⟨n, hn⟩ : ∃ n : SeparateHeapMap, n =
      { vaddr := virtualOffset, paddr := hostOffset, size := length, tick := s.tick, perm := perm } :=
    ⟨_, rfl⟩
  have hordered : Ordered { s with tick := s.tick + 1 } :=
    { h.ordered with ticks := fun i hi => Nat.lt_succ_of_lt (h.ordered.ticks i hi) }
  obtain ⟨hperm, hplain, -⟩ := hordered.insertMapping (n := n) (by rw [hn]; exact hlen)
    (by rw [hn]; exact Nat.lt_succ_self _) fun i hi => by
      have hpos := h.ordered.pos i hi
      have hout := fun a h1 h2 => h.not_holds (hfree a h1 h2) hi
      rw [hn]
      dsimp only
      by_contra hover
      refine hout (max virtualOffset (s.node i).vaddr) (Nat.le_max_left _ _) (by omega) ⟨?_, ?_⟩
      · exact Nat.le_max_right _ _
      · omega
  have hfresh : ∀ i ∈ s.mappings, i ≠ s.nextNode := fun i hi =>
    Nat.ne_of_lt (h.ordered.fresh i hi)
  have hold : ∀ i ∈ s.mappings, Function.update s.node s.nextNode n i = s.node i := fun i hi =>
    update_of_ne (hfresh i hi) _ _
  have hmem : ∀ i, i ∈ (({ s with tick := s.tick + 1 } : HeapTracker).insertMapping n).mappings ↔
      i = s.nextNode ∨ i ∈ s.mappings := fun i => hperm.mem_iff.trans List.mem_cons
  have hinv : Inv (({ s with tick := s.tick + 1 } : HeapTracker).insertMapping n)
      (HostMemory.map pages virtualOffset hostOffset length perm) := by
    refine ⟨hplain (by rw [hn]), fun a x => ?_, fun a x => ?_⟩
    · have hview : (∃ i ∈ (({ s with tick := s.tick + 1 } : HeapTracker).insertMapping n).mappings,
          (Function.update s.node s.nextNode n i).Maps a x) ↔
          n.Maps a x ∨ ∃ i ∈ s.mappings, (s.node i).Maps a x := by
        constructor
        · rintro ⟨i, hi, hmaps⟩
          rcases (hmem i).mp hi with rfl | hi
          · rw [update_self] at hmaps
            exact .inl hmaps
          · rw [hold i hi] at hmaps
            exact .inr ⟨i, hi, hmaps⟩
        · rintro (hmaps | ⟨i, hi, hmaps⟩)
          · refine ⟨s.nextNode, (hmem _).mpr (.inl rfl), ?_⟩
            rwa [update_self]
          · refine ⟨i, (hmem i).mpr (.inr hi), ?_⟩
            rwa [hold i hi]
      refine Iff.trans ?_ hview.symm
      rw [← h.pages a x, hn]
      unfold HostMemory.map SeparateHeapMap.Maps SeparateHeapMap.Holds
      split
      · next hin => simp [hin, hfree a hin.1 hin.2]
      · next hout => simp [hout]
    · have hview : (∃ i ∈ (({ s with tick := s.tick + 1 } : HeapTracker).insertMapping n).mappings,
          (Function.update s.node s.nextNode n i).isResident = true ∧
            (Function.update s.node s.nextNode n i).Maps a x) ↔
          ∃ i ∈ s.mappings, (s.node i).isResident = true ∧ (s.node i).Maps a x := by
        constructor
        · rintro ⟨i, hi, hres, hmaps⟩
          rcases (hmem i).mp hi with rfl | hi
          · rw [update_self, hn] at hres
            cases hres
          · rw [hold i hi] at hres hmaps
            exact ⟨i, hi, hres, hmaps⟩
        · rintro ⟨i, hi, hres, hmaps⟩
          refine ⟨i, (hmem i).mpr (.inr hi), ?_⟩
          rw [hold i hi]
          exact ⟨hres, hmaps⟩
      exact (h.buffer a x).trans hview.symm
  have hcall := (@HeapTracker.Inv.deferredMap _ _ virtualOffset hinv _ hmax).1
  rw [hn] at hcall
  exact hcall

/-! ## 7. Unmapping -/

/-- A round of the loop of `Unmap`. -/
def untrack (s : HeapTracker) (it : Nat) : HeapTracker :=
  let t := if (s.node it).isResident then
      { s with
        residentMapCount := s.residentMapCount - 1
        residentMappings := s.residentMappings.erase it }
    else s
  { t with mapCount := t.mapCount - 1, mappings := t.mappings.erase it }

theorem unmapLoop_cons {rest : List Nat} : s.unmapLoop stop (i :: rest) =
    if (s.node i).vaddr < stop then (s.untrack i).unmapLoop stop rest else s := rfl

theorem untrack_fields : (s.untrack i).node = s.node ∧ (s.untrack i).mappings = s.mappings.erase i ∧
    (s.untrack i).buffer = s.buffer ∧ (s.untrack i).nextNode = s.nextNode ∧
    (s.untrack i).tick = s.tick ∧ (s.untrack i).mapCount = s.mapCount - 1 := by
  unfold untrack
  split <;> exact ⟨rfl, rfl, rfl, rfl, rfl, rfl⟩

theorem untrack_residents (h : Ordered s) (hi : i ∈ s.mappings) :
    (∀ j, j ∈ (s.untrack i).residentMappings ↔ j ≠ i ∧ j ∈ s.residentMappings) ∧
      (s.untrack i).residentMappings.Sublist s.residentMappings ∧
      (s.untrack i).residentMapCount = (s.untrack i).residentMappings.length := by
  unfold untrack
  by_cases hres : (s.node i).isResident = true
  · rw [if_pos hres]
    have hir := (h.residents i).mpr ⟨hi, hres⟩
    have hlen := List.length_erase_of_mem hir
    have hpos := List.length_pos_of_mem hir
    have hcount := h.residentMapCount
    refine ⟨fun j => h.residents_nodup.mem_erase_iff, List.erase_sublist, ?_⟩
    dsimp only
    omega
  · rw [if_neg hres]
    refine ⟨fun j => (and_iff_right_of_imp ?_).symm, List.Sublist.refl _, h.residentMapCount⟩
    rintro hj rfl
    exact hres ((h.residents j).mp hj).2

theorem Ordered.untrack (h : Ordered s) (hi : i ∈ s.mappings) : Ordered (s.untrack i) := by
  obtain ⟨hnode, hmaps, -, hnext, htick, hcount⟩ := untrack_fields (s := s) (i := i)
  obtain ⟨hres, hsub, hresCount⟩ := untrack_residents h hi
  refine ⟨fun j hj => ?_, ?_, fun j hj => ?_, fun j hj => ?_, fun j => ?_, ?_, ?_, hresCount⟩
  · rw [hmaps] at hj
    rw [hnode]
    exact h.pos j (List.mem_of_mem_erase hj)
  · rw [hnode, hmaps]
    exact h.sorted.sublist List.erase_sublist
  · rw [hmaps] at hj
    rw [hnext]
    exact h.fresh j (List.mem_of_mem_erase hj)
  · rw [hmaps] at hj
    rw [hnode, htick]
    exact h.ticks j (List.mem_of_mem_erase hj)
  · rw [hres j, hmaps, h.mappings_nodup.mem_erase_iff, hnode, h.residents j, and_assoc]
  · rw [hnode]
    exact h.byTick.sublist hsub
  · have hlen := List.length_erase_of_mem hi
    have hpos := List.length_pos_of_mem hi
    have hold := h.mapCount
    rw [hcount, hmaps]
    omega

theorem unmapLoop_spec {A rest : List Nat} (h : Ordered s) (hmaps : s.mappings = A ++ rest) :
    Ordered (s.unmapLoop stop rest) ∧ (s.unmapLoop stop rest).node = s.node ∧
      (s.unmapLoop stop rest).buffer = s.buffer ∧
      (s.unmapLoop stop rest).mappings = A ++ rest.dropWhile fun i => (s.node i).vaddr < stop := by
  induction rest generalizing s with
  | nil => exact ⟨h, rfl, rfl, hmaps⟩
  | cons it rest ih =>
    rw [unmapLoop_cons, List.dropWhile_cons]
    by_cases hlt : (s.node it).vaddr < stop
    · rw [if_pos hlt, if_pos (by simpa using hlt)]
      have hnodup := h.mappings_nodup
      have hit : it ∈ s.mappings := by simp [hmaps]
      have hnotA : it ∉ A := by
        rw [hmaps] at hnodup
        exact fun hA => (List.nodup_append.mp hnodup).2.2 it hA it List.mem_cons_self rfl
      have herase : s.mappings.erase it = A ++ rest := by
        rw [hmaps, List.erase_append_right _ hnotA, List.erase_cons_head]
      obtain ⟨hnode, hmapsT, hbuffer, -⟩ := untrack_fields (s := s) (i := it)
      obtain ⟨hord, hn, hb, hm⟩ := ih (h.untrack hit) (hmapsT.trans herase)
      refine ⟨hord, hn.trans hnode, hb.trans hbuffer, hm.trans ?_⟩
      rw [hnode]
    · rw [if_neg hlt, if_neg (by simpa using hlt)]
      exact ⟨h, rfl, rfl, hmaps⟩

/-- In a list in order, what is dropped is what is below. -/
theorem mem_dropWhile_vaddr {l : List Nat} {node : Nat → SeparateHeapMap}
    (hsorted : l.Pairwise fun i j => (node i).vaddr + (node i).size ≤ (node j).vaddr) :
    i ∈ l.dropWhile (fun i => decide ((node i).vaddr < stop)) ↔ i ∈ l ∧ stop ≤ (node i).vaddr := by
  induction l with
  | nil => simp
  | cons x l ih =>
    have hcons := List.pairwise_cons.mp hsorted
    rw [List.dropWhile_cons]
    by_cases hx : (node x).vaddr < stop
    · rw [if_pos (by simpa using hx), ih hcons.2, List.mem_cons]
      constructor
      · exact fun ⟨hi, hle⟩ => ⟨.inr hi, hle⟩
      · rintro ⟨rfl | hi, hle⟩
        · omega
        · exact ⟨hi, hle⟩
    · rw [if_neg (by simpa using hx)]
      refine (and_iff_left_of_imp fun hi => ?_).symm
      rcases List.mem_cons.mp hi with rfl | hi
      · omega
      · have := hcons.1 i hi
        omega

/-- **`Unmap`** of a range that is mapped throughout. -/
theorem Inv.unmap (h : Inv s pages) (hallowed : (HeapCall.unmap virtualOffset size).Allowed pages) :
    Inv (s.unmap virtualOffset size) (HostMemory.unmap pages virtualOffset size) := by
  obtain ⟨h1, hb1, -⟩ := @HeapTracker.Inv.split _ _ virtualOffset h
  obtain ⟨h2, hend, hkeep⟩ := @HeapTracker.Inv.split _ _ (virtualOffset + size) h1
  have hstart := hkeep _ hb1
  rw [HeapTracker.unmap]
  generalize (s.splitHeapMapLocked virtualOffset).splitHeapMapLocked (virtualOffset + size) = t at *
  obtain ⟨A, hA⟩ : ∃ A, A = t.mappings.takeWhile fun i =>
    addrCompare { vaddr := virtualOffset } (t.node i) ≠ .eq := ⟨_, rfl⟩
  obtain ⟨B, hB⟩ : ∃ B, B = t.mappings.dropWhile fun i =>
    addrCompare { vaddr := virtualOffset } (t.node i) ≠ .eq := ⟨_, rfl⟩
  have hAB : t.mappings = A ++ B := by rw [hA, hB, List.takeWhile_append_dropWhile]
  rw [← hB]
  obtain ⟨hord, hnode, hbuffer, hmaps⟩ :=
    @HeapTracker.unmapLoop_spec _ (virtualOffset + size) _ _ h2.ordered hAB
  -- what stays tracked is outside the range
  have hsorted := h2.ordered.sorted
  rw [hAB] at hsorted
  obtain ⟨-, hsortedB, hcross⟩ := List.pairwise_append.mp hsorted
  have hside : ∀ i, i ∈ (t.unmapLoop (virtualOffset + size) B).mappings ↔ i ∈ t.mappings ∧
      ¬ (virtualOffset ≤ (t.node i).vaddr ∧ (t.node i).vaddr < virtualOffset + size) := by
    intro i
    rw [hmaps, List.mem_append, mem_dropWhile_vaddr hsortedB, hAB, List.mem_append]
    cases hB' : B with
    | nil =>
      -- nothing was found, and so the range is empty
      have hsize : size = 0 := by
        by_contra hne
        obtain ⟨j, hj, hhold⟩ := h2.holds (hallowed virtualOffset (Nat.le_refl _) (by omega))
        rw [hAB, hB', List.append_nil, hA] at hj
        have hne := List.mem_takeWhile_imp hj
        have hj' := (List.takeWhile_sublist _).mem hj
        exact absurd ((addrCompare_eq (h2.ordered.pos j hj')).mpr hhold) (by simpa using hne)
      simp [hsize]
    | cons b B' =>
      have hbB : b ∈ B := by rw [hB']; exact List.mem_cons_self
      have hbt : b ∈ t.mappings := by rw [hAB]; exact List.mem_append_right _ hbB
      have hbEq : addrCompare { vaddr := virtualOffset } (t.node b) = .eq := by
        have hhead := List.head?_dropWhile_not
          (fun i => decide (addrCompare { vaddr := virtualOffset } (t.node i) ≠ .eq)) t.mappings
        rw [← hB, hB'] at hhead
        simpa using hhead
      obtain ⟨hle, hlt⟩ := (addrCompare_eq (h2.ordered.pos b hbt)).mp hbEq
      have hbv : (t.node b).vaddr = virtualOffset := by
        by_contra hne
        dsimp only at hle hlt
        exact hstart b hbt ⟨by omega, hlt⟩
      rw [← hB']
      constructor
      · rintro (hi | ⟨hi, hge⟩)
        · have := hcross i hi b hbB
          have := h2.ordered.pos i (by rw [hAB]; exact List.mem_append_left _ hi)
          exact ⟨.inl hi, by omega⟩
        · exact ⟨.inr hi, by omega⟩
      · rintro ⟨hi | hi, hout⟩
        · exact .inl hi
        · refine .inr ⟨hi, ?_⟩
          have hge : virtualOffset ≤ (t.node i).vaddr := by
            rw [hB'] at hi hsortedB
            rcases List.mem_cons.mp hi with rfl | hi
            · omega
            · have := (List.pairwise_cons.mp hsortedB).1 i hi
              omega
          omega
  have hview : ∀ (P : SeparateHeapMap → Prop) (m : PageMap),
      (∀ a x, m a = some x ↔ ∃ i ∈ t.mappings, P (t.node i) ∧ (t.node i).Maps a x) →
      ∀ a x, HostMemory.unmap m virtualOffset size a = some x ↔
        ∃ i ∈ (t.unmapLoop (virtualOffset + size) B).mappings, P (t.node i) ∧ (t.node i).Maps a x := by
    intro P m hm a x
    unfold HostMemory.unmap
    split
    · next hin =>
      refine iff_of_false (by simp) ?_
      rintro ⟨i, hi, -, ⟨hle, hlt⟩, -⟩
      obtain ⟨him, hout⟩ := (hside i).mp hi
      have := hstart i him
      omega
    · next hout =>
      rw [hm a x]
      constructor
      · rintro ⟨i, hi, hP, hmaps⟩
        refine ⟨i, (hside i).mpr ⟨hi, ?_⟩, hP, hmaps⟩
        obtain ⟨⟨hle, hlt⟩, -⟩ := hmaps
        have := hend i hi
        omega
      · rintro ⟨i, hi, hP, hmaps⟩
        exact ⟨i, ((hside i).mp hi).1, hP, hmaps⟩
  refine ⟨{ hord with }, fun a x => ?_, fun a x => ?_⟩
  · have hpages := hview (fun _ => True) pages (fun a x => by simpa using h2.pages a x) a x
    rw [hnode]
    simpa using hpages
  · dsimp only
    rw [hbuffer, hnode]
    exact hview (fun n => n.isResident = true) t.buffer h2.buffer a x

/-! ## 8. Protection -/

theorem protect_append {mid : Nat} (hcur : cur ≤ mid) (hmid : mid ≤ stop) :
    HostMemory.protect (HostMemory.protect pages cur (mid - cur) perm) mid (stop - mid) perm =
      HostMemory.protect pages cur (stop - cur) perm := by
  funext a
  unfold HostMemory.protect
  by_cases hlow : cur ≤ a ∧ a < cur + (mid - cur)
  · rw [if_neg (by omega), if_pos hlow, if_pos (by omega)]
  · by_cases hhigh : mid ≤ a ∧ a < mid + (stop - mid)
    · rw [if_pos hhigh, if_neg hlow, if_pos (by omega)]
    · rw [if_neg hhigh, if_neg hlow, if_neg (by omega)]

theorem protect_empty : HostMemory.protect pages cur 0 perm = pages := by
  funext a
  exact if_neg (by omega)

/-- What a round of `Protect` does with the mapping that starts at the address. -/
def protectNode (s : HeapTracker) (i : Nat) (perm : MemoryPermission) : HeapTracker :=
  { s with
    node := Function.update s.node i { s.node i with perm := perm }
    buffer := if (s.node i).isResident then
        HostMemory.protect s.buffer (s.node i).vaddr (s.node i).size perm
      else s.buffer }

/-- **A mapping gets a permission**, and so does the host buffer where it is resident. -/
theorem Inv.protectNode (h : Inv s pages) (hi : i ∈ s.mappings) : Inv (s.protectNode i perm)
      (HostMemory.protect pages (s.node i).vaddr (s.node i).size perm) := by
  have hordered := h.ordered.setNode (n := { s.node i with perm := perm }) hi rfl
    (h.ordered.pos i hi) (Nat.le_refl _) rfl rfl
  -- a view changes by the permission of the one mapping
  have hview : ∀ (P : SeparateHeapMap → Prop) [DecidablePred P] (m : PageMap),
      (∀ a x, m a = some x ↔ ∃ j ∈ s.mappings, P (s.node j) ∧ (s.node j).Maps a x) →
      (P { s.node i with perm := perm } ↔ P (s.node i)) → ∀ m' : PageMap,
      (∀ a, m' a = if P (s.node i) then
        HostMemory.protect m (s.node i).vaddr (s.node i).size perm a else m a) →
      ∀ a x, m' a = some x ↔ ∃ j ∈ s.mappings,
        P (Function.update s.node i { s.node i with perm := perm } j) ∧
          (Function.update s.node i { s.node i with perm := perm } j).Maps a x := by
    intro P _ m hm hP m' hm' a x
    rw [exists_setNode (fun n => P n ∧ n.Maps a x) s.node { s.node i with perm := perm } hi, hP, hm' a]
    have hma := hm a
    have hself := fun y => exists_self (fun n => P n ∧ n.Maps a y) s.node hi
    by_cases hPi : P (s.node i)
    · rw [if_pos hPi]
      unfold HostMemory.protect
      by_cases hin : (s.node i).vaddr ≤ a ∧ a < (s.node i).vaddr + (s.node i).size
      · -- the address is the mapping's, and no other's
        have hold := (hma ((s.node i).paddr + (a - (s.node i).vaddr), (s.node i).perm)).mpr
          ⟨i, hi, hPi, hin, rfl⟩
        rw [if_pos hin, hold, Option.map_some]
        constructor
        · intro heq
          exact .inl ⟨hPi, hin, Option.some.inj heq⟩
        · rintro (⟨-, -, heq⟩ | ⟨j, hj, hji, -, hmaps⟩)
          · exact congrArg some heq
          · exact absurd (h.ordered.disjoint hj hi hmaps.1 hin) hji
      · rw [if_neg hin, hma x, hself x]
        refine or_congr_left ?_
        exact iff_of_false (fun hc => hin hc.2.1) fun hc => hin hc.2.1
    · rw [if_neg hPi, hma x, hself x]
      refine or_congr_left ?_
      exact iff_of_false (fun hc => hPi hc.1) fun hc => hPi hc.1
  refine ⟨{ hordered with }, fun a x => ?_, fun a x => ?_⟩
  · have hpages := hview (fun _ => True) pages (fun a x => by simpa using h.pages a x) Iff.rfl
      (HostMemory.protect pages (s.node i).vaddr (s.node i).size perm)
      (fun a => (if_pos trivial).symm) a x
    simp only [true_and] at hpages
    exact hpages
  · refine hview (fun n => n.isResident = true) s.buffer h.buffer Iff.rfl _ (fun a => ?_) a x
    unfold HeapTracker.protectNode
    split <;> rfl

theorem protectNode_boundary {b : Nat} (h : Boundary s b) : Boundary (s.protectNode i perm) b := by
  intro j hj
  unfold HeapTracker.protectNode
  dsimp only
  by_cases hji : j = i
  · rw [hji, update_self]
    rw [hji] at hj
    exact h i hj
  · rw [update_of_ne hji]
    exact h j hj

/-- **The loop of `Protect`** over a range of mappings. -/
theorem Inv.protectLoop {fuel : Nat} (h : Inv s pages) (hcur : Boundary s cur)
    (hstop : Boundary s stop) (hcover : ∀ a, cur ≤ a → a < stop → pages a ≠ none)
    (hfuel : stop ≤ cur + fuel) : Inv (HeapTracker.protectLoop stop perm fuel cur s)
      (HostMemory.protect pages cur (stop - cur) perm) := by
  induction fuel generalizing s pages cur with
  | zero =>
    rw [HeapTracker.protectLoop, Nat.sub_eq_zero_of_le (by omega), protect_empty]
    exact h
  | succ fuel ih =>
    rw [HeapTracker.protectLoop]
    by_cases hlt : cur < stop
    swap
    · rw [if_neg hlt, Nat.sub_eq_zero_of_le (by omega), protect_empty]
      exact h
    rw [if_pos hlt]
    -- the mapping that starts here
    obtain ⟨i, hi, hhold⟩ := h.holds (hcover cur (Nat.le_refl _) hlt)
    have hpos := h.ordered.pos i hi
    have hvaddr : (s.node i).vaddr = cur := by
      have := hcur i hi
      obtain ⟨hle, hlt'⟩ := hhold
      omega
    have heq : addrCompare { vaddr := cur } (s.node i) ≠ .gt := by
      rw [ne_eq, addrCompare_gt hpos]
      exact Nat.not_le.mpr hhold.2
    have hfind : treeNFind (fun i => addrCompare { vaddr := cur } (s.node i)) s.mappings =
        some i := by
      cases hnfind : treeNFind (fun i => addrCompare { vaddr := cur } (s.node i)) s.mappings with
      | none => exact absurd (treeNFind_none hnfind i hi) heq
      | some it =>
        obtain ⟨hit, hne⟩ := treeNFind_some hnfind
        rcases treeNFind_first hnfind h.ordered.sorted hi heq with rfl | hbefore
        · rfl
        · rw [ne_eq, addrCompare_gt (h.ordered.pos it hit)] at hne
          rw [hvaddr] at hbefore
          exact absurd hbefore hne
    have hend : cur + (s.node i).size ≤ stop := by
      have := hstop i hi
      omega
    rw [hfind]
    dsimp only
    rw [if_pos hvaddr]
    simp only [HeapTracker.setNode, update_self]
    rw [Nat.min_eq_left hend, Nat.add_sub_cancel_left]
    have hround : (if (s.node i).isResident = true then
        { s with
          node := Function.update s.node i { s.node i with perm := perm }
          buffer := HostMemory.protect s.buffer cur (s.node i).size perm }
      else { s with node := Function.update s.node i { s.node i with perm := perm } }) =
        s.protectNode i perm := by
      unfold HeapTracker.protectNode
      rw [hvaddr]
      split <;> rfl
    have hnext : Boundary (s.protectNode i perm) (cur + (s.node i).size) := by
      refine protectNode_boundary fun j hj hin => ?_
      have hij := h.ordered.disjoint (a := cur + (s.node i).size - 1) hj hi ⟨by omega, by omega⟩
        ⟨by omega, by omega⟩
      rw [hij] at hin
      omega
    have hnode := @HeapTracker.Inv.protectNode _ _ _ perm h hi
    rw [hvaddr] at hnode
    have hrest := ih hnode hnext (protectNode_boundary hstop) (fun a hle hlt' => by
      unfold HostMemory.protect
      rw [if_neg (by omega)]
      exact hcover a (by omega) hlt') (by omega)
    have happend := @HeapTracker.protect_append pages cur _ perm (cur + (s.node i).size)
        (Nat.le_add_right _ _) hend
    rw [Nat.add_sub_cancel_left] at happend
    rw [happend] at hrest
    exact hround ▸ hrest

/-- **`Protect`** of a range that is mapped throughout. -/
theorem Inv.protect (h : Inv s pages)
    (hallowed : (HeapCall.protect virtualOffset size perm).Allowed pages) :
    Inv (s.protect virtualOffset size perm) (HostMemory.protect pages virtualOffset size perm) := by
  obtain ⟨h1, hb1, -⟩ := @HeapTracker.Inv.split _ _ virtualOffset h
  obtain ⟨h2, hend, hkeep⟩ := @HeapTracker.Inv.split _ _ (virtualOffset + size) h1
  have hloop := @HeapTracker.Inv.protectLoop _ _ _ _ perm size h2 (hkeep _ hb1) hend hallowed
      (Nat.le_refl _)
  rwa [Nat.add_sub_cancel_left] at hloop

/-! ## 9. Runs -/

/-- **Every allowed call keeps the pages.** -/
theorem Inv.run (h : Inv s pages) (hmax : 2 ≤ maxCount) {call : HeapCall}
    (hcall : call.Allowed pages) : Inv (call.run maxCount s) (call.meaning pages) := by
  cases call with
  | map virtualOffset hostOffset length perm => exact h.map hmax hcall
  | unmap virtualOffset size => exact h.unmap hcall
  | protect virtualOffset size perm => exact h.protect hcall
  | deferredMap virtualOffset => exact (h.deferredMap hmax).1

theorem inv_of_reachable (h : HeapCall.Reachable maxCount s pages) (hmax : 2 ≤ maxCount) : Inv s pages := by
  induction h with
  | initial => exact Inv.initial
  | step _ hcall ih => exact ih.run hmax hcall

/-- **The tracker mirrors the heap.** In every state that calls lead to, the mappings are disjoint and
    map each address as the calls mean it; the counts are the sizes of the trees; the host buffer
    has the resident mappings; and an address that was mapped on use is resident. -/
theorem heapTracker_mirrors (h : HeapCall.Reachable maxCount s pages) (hmax : 2 ≤ maxCount) :
    (∀ i ∈ s.mappings, ∀ j ∈ s.mappings, i ≠ j → ∀ a, (s.node i).Holds a → ¬ (s.node j).Holds a) ∧
    (∀ a x, pages a = some x ↔ ∃ i ∈ s.mappings, (s.node i).Maps a x) ∧
    s.mapCount = s.mappings.length ∧ s.residentMapCount = s.residentMappings.length ∧
    (∀ i, i ∈ s.residentMappings ↔ i ∈ s.mappings ∧ (s.node i).isResident = true) ∧
    (∀ a x, s.buffer a = some x ↔ ∃ i ∈ s.mappings, (s.node i).isResident = true ∧ (s.node i).Maps a x) ∧
    ∀ offset, (s.deferredMapSeparateHeap maxCount offset).1 = true →
      ∃ i ∈ (s.deferredMapSeparateHeap maxCount offset).2.mappings,
        ((s.deferredMapSeparateHeap maxCount offset).2.node i).isResident = true ∧
        ((s.deferredMapSeparateHeap maxCount offset).2.node i).Holds offset := by
  have hinv := inv_of_reachable h hmax
  exact ⟨fun i hi j hj hne a hia hja => hne (hinv.ordered.disjoint hi hj hia hja), hinv.pages,
    hinv.ordered.mapCount, hinv.ordered.residentMapCount, hinv.ordered.residents, hinv.buffer,
    fun offset => (hinv.deferredMap hmax).2⟩

/-- A heap that is mapped and then protected in the middle. -/
theorem heapTracker_mirrors_split :
    let s := (HeapCall.protect 0x2000 0x1000 1).run 2 ((HeapCall.map 0x1000 0x8000 0x3000 3).run 2 {})
    s.mapCount = s.mappings.length := by
  have hreach : HeapCall.Reachable 2
      ((HeapCall.protect 0x2000 0x1000 1).run 2 ((HeapCall.map 0x1000 0x8000 0x3000 3).run 2 {}))
      ((HeapCall.protect 0x2000 0x1000 1).meaning
        ((HeapCall.map 0x1000 0x8000 0x3000 3).meaning fun _ => none)) := by
    refine .step (.step .initial ⟨by decide, fun _ _ _ => rfl⟩) fun a hle hlt => ?_
    change HostMemory.map (fun _ => none) 0x1000 0x8000 0x3000 3 a ≠ none
    unfold HostMemory.map
    rw [if_pos (by omega)]
    exact Option.some_ne_none _
  exact (heapTracker_mirrors hreach (by decide)).2.2.1

end HeapTracker

end Yuzu.Common
