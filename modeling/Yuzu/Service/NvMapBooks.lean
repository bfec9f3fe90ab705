/-
  File:      Yuzu/Service/NvMapBooks.lean
  Subject:   The books of nvmap: where each handle is mapped.

  A handle is in the heap of its session, where the ranges count the handles on an address, or has
  a lease of the SMMU, and may have one of the low area besides. Each way of mapping or unmapping
  one handle has a lemma that says what becomes of the books.
-/
import Yuzu.Service.NvMap

namespace Yuzu.Service.NvCore

open List Option Function

variable {c : Container} {n n' : NvMap} {objects : List Handle} {smmu : Smmu} {low : LowArea}
  {ranges : SessionId → Nat → Nat} {o : Nat} {h h' : Handle} {id : HandleId}

/-! ## 1. The books -/

/-- What a handle outside the preallocated areas has of the SMMU. -/
def Handle.deviceLease (h : Handle) : Option (Lease (SessionId × Nat)) :=
  if h.dAddress ≠ 0 ∧ h.inHeap = false then
    some ⟨h.dAddress, h.alignedSize, h.deviceSize, fun i => (h.sessionId, h.address + i)⟩
  else none

def Handle.lowLease (h : Handle) : Option (Lease Nat) :=
  if h.pinVirtAddress ≠ 0 then
    some ⟨h.pinVirtAddress, h.alignedSize, h.lowSize, fun i => h.dAddress + i⟩
  else none

/-- A handle maps an address of a session's heap. -/
abbrev Handle.InHeapAt (h : Handle) (s : SessionId) (v : Nat) : Prop :=
  h.inHeap = true ∧ h.sessionId = s ∧ InInterval h.address h.alignedSize v

/-- The areas of the sessions and the handles outside them. -/
def deviceLeases (c : Container) (objects : List Handle) :
    SessionId ⊕ Nat → Option (Lease (SessionId × Nat))
  | .inl s => (c.mapper s).map fun m => ⟨m.daddress, 0, m.size, fun i => (s, i)⟩
  | .inr o => objects[o]?.bind Handle.deviceLease

def lowLeases (objects : List Handle) (o : Nat) : Option (Lease Nat) :=
  objects[o]?.bind Handle.lowLease

/-- **The books**: the SMMU serves the areas and the handles outside them, the low area serves the
handles pinned there, and an address of a heap is mapped while a handle counts on it. -/
structure Books (c : Container) (objects : List Handle) (smmu : Smmu) (low : LowArea)
    (ranges : SessionId → Nat → Nat) : Prop where
  device : Serves smmu (deviceLeases c objects)
  low : Serves low (lowLeases objects)
  counts : ∀ s v, ranges s v = objects.countP fun h => h.InHeapAt s v
  heap : ∀ s m v, c.mapper s = some m → m.vaddress ≤ v → v < m.vaddress + m.size →
    0 < ranges s v → smmu.entry (m.daddress + (v - m.vaddress)) = some (s, v)

theorem deviceLeases_set_self (ho : o < objects.length) :
    deviceLeases c (objects.set o h') (.inr o) = h'.deviceLease := by
  simp only [deviceLeases, List.getElem?_set_self ho, bind_some]

theorem deviceLeases_set_ne {x : SessionId ⊕ Nat} (hx : x ≠ .inr o) :
    deviceLeases c (objects.set o h') x = deviceLeases c objects x := by
  cases x with
  | inl s => rfl
  | inr p =>
    have hp : o ≠ p := fun e => hx (e ▸ rfl)
    simp only [deviceLeases, List.getElem?_set_ne hp]

theorem lowLeases_set_self (ho : o < objects.length) : lowLeases (objects.set o h') o = h'.lowLease := by
  simp only [lowLeases, List.getElem?_set_self ho, bind_some]

theorem lowLeases_set_ne {p : Nat} (hp : p ≠ o) : lowLeases (objects.set o h') p = lowLeases objects p := by
  simp only [lowLeases, List.getElem?_set_ne hp.symm]

theorem deviceLeases_of_get (ho : objects[o]? = some h) :
    deviceLeases c objects (.inr o) = h.deviceLease := by
  simp only [deviceLeases, ho, bind_some]

theorem lowLeases_of_get (ho : objects[o]? = some h) : lowLeases objects o = h.lowLease := by
  simp only [lowLeases, ho, bind_some]

theorem deviceLeases_set_same (ho : objects[o]? = some h) (hlease : h'.deviceLease = h.deviceLease)
    (x : SessionId ⊕ Nat) : deviceLeases c (objects.set o h') x = deviceLeases c objects x := by
  by_cases hx : x = .inr o
  · rw [hx, deviceLeases_set_self (List.getElem?_eq_some_iff.mp ho).1, deviceLeases_of_get ho, hlease]
  · exact deviceLeases_set_ne hx

theorem lowLeases_set_same (ho : objects[o]? = some h) (hlease : h'.lowLease = h.lowLease) (p : Nat) :
    lowLeases (objects.set o h') p = lowLeases objects p := by
  by_cases hp : p = o
  · rw [hp, lowLeases_set_self (List.getElem?_eq_some_iff.mp ho).1, lowLeases_of_get ho, hlease]
  · exact lowLeases_set_ne hp

variable {P : Handle → Bool}

theorem countP_set_add (ho : objects[o]? = some h) :
    (objects.set o h').countP P + (if P h then 1 else 0) = objects.countP P + (if P h' then 1 else 0) := by
  obtain ⟨hlt, hget⟩ := List.getElem?_eq_some_iff.mp ho
  rw [countP_set hlt, hget]
  have hle : (if P h then 1 else 0) ≤ objects.countP P := by
    split
    · rename_i hP
      exact countP_pos_iff.mpr ⟨h, mem_of_getElem? ho, hP⟩
    · exact Nat.zero_le _
  omega

theorem countP_set_gain (ho : objects[o]? = some h) (hP : P h = false) :
    (objects.set o h').countP P = objects.countP P + if P h' then 1 else 0 := by
  have hadd := @countP_set_add _ _ _ h' P ho
  rw [hP] at hadd
  exact hadd

theorem countP_set_loss (ho : objects[o]? = some h) (hP : P h' = false) :
    (objects.set o h').countP P = objects.countP P - if P h then 1 else 0 := by
  have hadd := @countP_set_add _ _ _ h' P ho
  rw [hP] at hadd
  exact Nat.eq_sub_of_add_eq hadd

theorem countP_set_same (ho : objects[o]? = some h) (hP : P h' = P h) :
    (objects.set o h').countP P = objects.countP P := by
  have hadd := @countP_set_add _ _ _ h' P ho
  rw [hP] at hadd
  omega

namespace Books

variable {m : HeapMapper}

theorem area {s : SessionId} (hm : c.mapper s = some m) :
    deviceLeases c objects (.inl s) = some ⟨m.daddress, 0, m.size, fun i => (s, i)⟩ := by
  simp only [deviceLeases, hm, map_some]

theorem heap_of_inside (b : Books c objects smmu low ranges) {smmu' : Smmu}
    (hin : ∀ s m d, c.mapper s = some m → m.Has d → smmu'.entry d = smmu.entry d) :
    ∀ s m v, c.mapper s = some m → m.vaddress ≤ v → v < m.vaddress + m.size → 0 < ranges s v →
      smmu'.entry (m.daddress + (v - m.vaddress)) = some (s, v) := by
  intro s m v hm hle hlt hcount
  rw [hin s m _ hm ⟨by omega, by omega⟩]
  exact b.heap s m v hm hle hlt hcount

theorem low_set_same (b : Books c objects smmu low ranges) (ho : objects[o]? = some h)
    (hlease : h'.lowLease = h.lowLease) : Serves low (lowLeases (objects.set o h')) :=
  b.low.congr (lowLeases_set_same ho hlease) (fun _ _ _ _ _ => rfl) fun _ _ _ _ _ => rfl

theorem device_set_same (b : Books c objects smmu low ranges) (ho : objects[o]? = some h)
    (hlease : h'.deviceLease = h.deviceLease) :
    Serves smmu (deviceLeases c (objects.set o h')) :=
  b.device.congr (deviceLeases_set_same ho hlease) (fun _ _ _ _ _ => rfl) fun _ _ _ _ _ => rfl

theorem counts_set_same (b : Books c objects smmu low ranges) (ho : objects[o]? = some h)
    (hheap : ∀ s v, h'.InHeapAt s v ↔ h.InHeapAt s v) (s : SessionId) (v : Nat) :
    ranges s v = (objects.set o h').countP fun h => h.InHeapAt s v := by
  rw [b.counts, countP_set_same ho (decide_eq_decide.mpr (hheap s v))]

theorem set_same (b : Books c objects smmu low ranges) (ho : objects[o]? = some h)
    (hdevice : h'.deviceLease = h.deviceLease) (hlow : h'.lowLease = h.lowLease)
    (hheap : ∀ s v, h'.InHeapAt s v ↔ h.InHeapAt s v) :
    Books c (objects.set o h') smmu low ranges :=
  ⟨b.device_set_same ho hdevice, b.low_set_same ho hlow, b.counts_set_same ho hheap, b.heap⟩

theorem append_new (b : Books c objects smmu low ranges) (size : Nat) :
    Books c (objects ++ [Handle.new size id]) smmu low ranges where
  device := by
    refine b.device.congr (fun x => ?_) (fun _ _ _ _ _ => rfl) fun _ _ _ _ _ => rfl
    cases x with
    | inl s => rfl
    | inr p =>
      simp only [deviceLeases, List.getElem?_append]
      split
      · rfl
      · rename_i hp
        rw [List.getElem?_eq_none (Nat.not_lt.mp hp), List.getElem?_singleton]
        split <;> rfl
  low := by
    refine b.low.congr (fun p => ?_) (fun _ _ _ _ _ => rfl) fun _ _ _ _ _ => rfl
    simp only [lowLeases, List.getElem?_append]
    split
    · rfl
    · rename_i hp
      rw [List.getElem?_eq_none (Nat.not_lt.mp hp), List.getElem?_singleton]
      split <;> rfl
  counts s v := by
    rw [b.counts, countP_append, countP_singleton]
    rfl
  heap := b.heap

end Books

/-! ## 2. The heap of a session -/

namespace HeapMapper

variable {m : HeapMapper} {start size : Nat} {counts : Nat → Nat} {s : SessionId} {d : Nat}

theorem map_entry_outside (hend : (start + size) % 2 ^ 64 ≤ m.vaddress + m.size)
    (hd : ¬ m.Has d) : (m.map s start size counts smmu).2.2.entry d = smmu.entry d := by
  refine if_neg ?_
  rintro ⟨hle, ⟨-, hlt⟩, -⟩
  exact hd ⟨hle, by omega⟩

theorem unmap_entry_outside (hend : (start + size) % 2 ^ 64 ≤ m.vaddress + m.size)
    (hd : ¬ m.Has d) : (m.unmap start size counts smmu).2.entry d = smmu.entry d := by
  refine if_neg ?_
  rintro ⟨hle, ⟨-, hlt⟩, -⟩
  exact hd ⟨hle, by omega⟩

theorem map_entry_counted {v : Nat} (hv : m.vaddress ≤ v)
    (hold : 0 < counts v → smmu.entry (m.daddress + (v - m.vaddress)) = some (s, v))
    (hcount : 0 < (m.map s start size counts smmu).2.1 v) :
    (m.map s start size counts smmu).2.2.entry (m.daddress + (v - m.vaddress)) = some (s, v) := by
  have hback : m.vaddress + (m.daddress + (v - m.vaddress) - m.daddress) = v := by omega
  simp only [map, hback] at hcount ⊢
  split
  · rfl
  · rename_i hnot
    refine hold ?_
    split at hcount
    · rename_i hin
      exact Nat.pos_of_ne_zero fun h0 => hnot ⟨by omega, hin, h0⟩
    · exact hcount

theorem unmap_entry_counted {v : Nat} (hv : m.vaddress ≤ v)
    (hold : 0 < counts v → smmu.entry (m.daddress + (v - m.vaddress)) = some (s, v))
    (hcount : 0 < (m.unmap start size counts smmu).1 v) :
    (m.unmap start size counts smmu).2.entry (m.daddress + (v - m.vaddress)) = some (s, v) := by
  have hback : m.vaddress + (m.daddress + (v - m.vaddress) - m.daddress) = v := by omega
  simp only [unmap, hback] at hcount ⊢
  split at hcount
  · rw [if_neg (fun hnot => by omega)]
    exact hold (by omega)
  · rename_i hout
    rw [if_neg (fun hin => hout hin.2.1)]
    exact hold hcount

end HeapMapper

/-! ## 3. What the calls do to the books -/

namespace Books

theorem heap_of_outside (b : Books c objects smmu low ranges) {s : SessionId}
    (hm : c.mapper s = some m) {smmu' : Smmu} {counts' : Nat → Nat}
    (hout : ∀ d, ¬ m.Has d → smmu'.entry d = smmu.entry d)
    (hin : ∀ v, m.vaddress ≤ v → v < m.vaddress + m.size → 0 < counts' v →
      smmu'.entry (m.daddress + (v - m.vaddress)) = some (s, v)) :
    ∀ s' m' v, c.mapper s' = some m' → m'.vaddress ≤ v → v < m'.vaddress + m'.size →
      0 < Function.update ranges s counts' s' v →
      smmu'.entry (m'.daddress + (v - m'.vaddress)) = some (s', v) := by
  intro s' m' v hm' hle hlt hcount
  by_cases hs : s' = s
  · subst hs
    obtain rfl : m = m' := some.inj (hm.symm.trans hm')
    rw [update_self] at hcount
    exact hin v hle hlt hcount
  · rw [update_of_ne hs] at hcount
    rw [hout]
    · exact b.heap s' m' v hm' hle hlt hcount
    · intro hhas
      exact hs (c.apart s' s m' m _ hm' hm ⟨by omega, by omega⟩ hhas)

theorem device_of_outside (b : Books c objects smmu low ranges) {s : SessionId}
    (hm : c.mapper s = some m) {smmu' : Smmu} (hheld : smmu'.held = smmu.held)
    (hout : ∀ d, ¬ m.Has d → smmu'.entry d = smmu.entry d) (ho : objects[o]? = some h)
    (hlease : h'.deviceLease = h.deviceLease) :
    Serves smmu' (deviceLeases c (objects.set o h')) :=
  b.device.rewrite (area hm) rfl (deviceLeases_set_same ho hlease) hheld fun d hd => hout d hd

theorem releaseLow (b : Books c objects smmu low ranges) (ho : objects[o]? = some h) :
    Books c (objects.set o { h with pinVirtAddress := 0 }) smmu (NvMap.releaseLow h low) ranges := by
  have hlt := (List.getElem?_eq_some_iff.mp ho).1
  refine ⟨b.device_set_same ho rfl, ?_, b.counts_set_same ho fun _ _ => Iff.rfl, b.heap⟩
  by_cases hpin : h.pinVirtAddress = 0
  · have hnone : h.lowLease = none := if_neg (not_not.mpr hpin)
    rw [NvMap.releaseLow, if_neg (not_not.mpr hpin)]
    exact b.low_set_same ho hnone.symm
  · have hlease : lowLeases objects o =
        some ⟨h.pinVirtAddress, h.alignedSize, h.lowSize, fun i => h.dAddress + i⟩ := by
      rw [lowLeases_of_get ho]
      exact if_pos hpin
    have hgone : lowLeases (objects.set o { h with pinVirtAddress := 0 }) o = none := by
      rw [lowLeases_set_self hlt]
      exact if_neg (not_not.mpr rfl)
    rw [NvMap.releaseLow, if_pos hpin]
    exact b.low.giveBack hlease hgone fun p hp => lowLeases_set_ne hp

theorem releaseHeap (b : Books c objects smmu low ranges) (ho : objects[o]? = some h)
    (hpin : h.pinVirtAddress = 0) (hheap : h.inHeap = true)
    (hm : c.mapper h.sessionId = some m)
    (hend : (h.address + h.alignedSize) % 2 ^ 64 ≤ m.vaddress + m.size) :
    Books c (objects.set o { h with dAddress := 0, inHeap := false })
      (m.unmap h.address h.alignedSize (ranges h.sessionId) smmu).2 low
      (Function.update ranges h.sessionId
        (m.unmap h.address h.alignedSize (ranges h.sessionId) smmu).1) := by
  have hold : h.deviceLease = none := if_neg fun hne => Bool.false_ne_true (hne.2.symm.trans hheap)
  have hnone : ({ h with dAddress := 0, inHeap := false } : Handle).deviceLease = none :=
    if_neg fun hne => hne.1 rfl
  have hlow : ({ h with dAddress := 0, inHeap := false } : Handle).lowLease = h.lowLease := by
    rw [Handle.lowLease, Handle.lowLease, if_neg (not_not.mpr hpin), if_neg (not_not.mpr hpin)]
  have hout : ∀ d, ¬ m.Has d →
      (m.unmap h.address h.alignedSize (ranges h.sessionId) smmu).2.entry d = smmu.entry d :=
    fun d => HeapMapper.unmap_entry_outside hend
  refine ⟨b.device_of_outside hm rfl hout ho (hnone.trans hold.symm), b.low_set_same ho hlow,
    fun s v => ?_, b.heap_of_outside hm hout fun v hle hv =>
      HeapMapper.unmap_entry_counted hle (b.heap _ _ _ hm hle hv)⟩
  rw [countP_set_loss ho (decide_eq_false fun hne => nomatch hne.1), ← b.counts]
  simp only [Handle.InHeapAt, hheap, true_and, decide_eq_true_eq]
  by_cases hs : h.sessionId = s
  · subst hs
    simp only [update_self, HeapMapper.unmap, true_and]
    split <;> rfl
  · rw [if_neg (fun hne => hs hne.1), update_of_ne (Ne.symm hs), Nat.sub_zero]

theorem releaseSmmu (b : Books c objects smmu low ranges) (ho : objects[o]? = some h)
    (hpin : h.pinVirtAddress = 0) (hheap : h.inHeap = false) (hd : h.dAddress ≠ 0) :
    Books c (objects.set o { h with dAddress := 0, inHeap := false })
      ((smmu.unmap h.dAddress h.alignedSize).free h.dAddress h.deviceSize) low ranges := by
  have hlease : deviceLeases c objects (.inr o) = some ⟨h.dAddress, h.alignedSize, h.deviceSize,
      fun i => (h.sessionId, h.address + i)⟩ := by
    rw [deviceLeases_of_get ho]
    exact if_pos ⟨hd, hheap⟩
  have hgone : deviceLeases c (objects.set o { h with dAddress := 0, inHeap := false }) (.inr o) =
      none := by
    rw [deviceLeases_set_self (List.getElem?_eq_some_iff.mp ho).1]
    exact if_neg fun hne => hne.1 rfl
  have hlow : ({ h with dAddress := 0, inHeap := false } : Handle).lowLease = h.lowLease := by
    rw [Handle.lowLease, Handle.lowLease, if_neg (not_not.mpr hpin), if_neg (not_not.mpr hpin)]
  refine ⟨b.device.giveBack hlease hgone fun x hx => deviceLeases_set_ne hx, b.low_set_same ho hlow,
    b.counts_set_same ho fun s v => ?_, b.heap_of_inside fun s m d hm hhas => if_neg ?_⟩
  · simp only [Handle.InHeapAt, hheap, Bool.false_eq_true, false_and]
  · have hfit := b.device.fits _ _ hlease
    have hnot := b.device.not_has hlease (area hm) (by simp) hhas
    exact fun hr => hnot ⟨hr.1, by dsimp only at hfit ⊢; omega⟩

theorem mapHeap (b : Books c objects smmu low ranges) (ho : objects[o]? = some h)
    (hpin : h.pinVirtAddress = 0) (hheap : h.inHeap = false) (hd : h.dAddress = 0)
    (hm : c.mapper h.sessionId = some m)
    (hend : (h.address + h.alignedSize) % 2 ^ 64 ≤ m.vaddress + m.size) :
    Books c (objects.set o { h with dAddress := d, inHeap := true })
      (m.map h.sessionId h.address h.alignedSize (ranges h.sessionId) smmu).2.2 low
      (Function.update ranges h.sessionId
        (m.map h.sessionId h.address h.alignedSize (ranges h.sessionId) smmu).2.1) := by
  have hold : h.deviceLease = none := if_neg fun hne => hne.1 hd
  have hnone : ({ h with dAddress := d, inHeap := true } : Handle).deviceLease = none :=
    if_neg fun hne => nomatch hne.2
  have hlow : ({ h with dAddress := d, inHeap := true } : Handle).lowLease = h.lowLease := by
    rw [Handle.lowLease, Handle.lowLease, if_neg (not_not.mpr hpin), if_neg (not_not.mpr hpin)]
  have hout : ∀ d, ¬ m.Has d →
      (m.map h.sessionId h.address h.alignedSize (ranges h.sessionId) smmu).2.2.entry d =
        smmu.entry d := fun d => HeapMapper.map_entry_outside hend
  refine ⟨b.device_of_outside hm rfl hout ho (hnone.trans hold.symm), b.low_set_same ho hlow,
    fun s v => ?_, b.heap_of_outside hm hout fun v hle hv =>
      HeapMapper.map_entry_counted hle (b.heap _ _ _ hm hle hv)⟩
  have hnot : ¬ h.InHeapAt s v := fun hne => Bool.false_ne_true (hheap.symm.trans hne.1)
  rw [countP_set_gain ho (decide_eq_false hnot), ← b.counts]
  simp only [Handle.InHeapAt, true_and, decide_eq_true_eq]
  by_cases hs : h.sessionId = s
  · subst hs
    simp only [update_self, HeapMapper.map, true_and]
    split <;> rfl
  · rw [if_neg (fun hne => hs hne.1), update_of_ne (Ne.symm hs), Nat.add_zero]

theorem mapSmmu (b : Books c objects smmu low ranges) (ho : objects[o]? = some h)
    (hpin : h.pinVirtAddress = 0) (hheap : h.inHeap = false)
    (hd : d ≠ 0) (hfits : h.alignedSize ≤ h.deviceSize)
    (hfree : ∀ r, d ≤ r → r < d + h.deviceSize → smmu.held r = false) :
    Books c (objects.set o { h with dAddress := d, inHeap := false })
      ((smmu.allocate d h.deviceSize).map d h.alignedSize fun i => (h.sessionId, h.address + i)) low
      ranges := by
  have hlease : deviceLeases c (objects.set o { h with dAddress := d, inHeap := false }) (.inr o) =
      some ⟨d, h.alignedSize, h.deviceSize, fun i => (h.sessionId, h.address + i)⟩ := by
    rw [deviceLeases_set_self (List.getElem?_eq_some_iff.mp ho).1]
    exact if_pos ⟨hd, rfl⟩
  have hlow : ({ h with dAddress := d, inHeap := false } : Handle).lowLease = h.lowLease := by
    rw [Handle.lowLease, Handle.lowLease, if_neg (not_not.mpr hpin), if_neg (not_not.mpr hpin)]
  refine ⟨b.device.grant (fun r hr => hfree r hr.1 hr.2) hfits hlease
    fun x hx => deviceLeases_set_ne hx, b.low_set_same ho hlow,
    b.counts_set_same ho fun s v => ?_, b.heap_of_inside fun s m r hm hhas => if_neg ?_⟩
  · simp only [Handle.InHeapAt, hheap]
  · intro hr
    have hheld := b.device.held _ _ r (area hm) hhas
    rw [hfree r hr.1 (by omega)] at hheld
    cases hheld

theorem mapLow (b : Books c objects smmu low ranges) (ho : objects[o]? = some h)
    (hd : d ≠ 0) (hfits : h.alignedSize ≤ h.lowSize)
    (hfree : ∀ r, d ≤ r → r < d + h.lowSize → low.held r = false) :
    Books c (objects.set o { h with pinVirtAddress := d }) smmu
      ((low.allocate d h.lowSize).map d h.alignedSize fun i => h.dAddress + i) ranges := by
  have hlease : lowLeases (objects.set o { h with pinVirtAddress := d }) o =
      some ⟨d, h.alignedSize, h.lowSize, fun i => h.dAddress + i⟩ := by
    rw [lowLeases_set_self (List.getElem?_eq_some_iff.mp ho).1]
    exact if_pos hd
  exact ⟨b.device_set_same ho rfl, b.low.grant (fun r hr => hfree r hr.1 hr.2) hfits hlease
    fun p hp => lowLeases_set_ne hp, b.counts_set_same ho fun _ _ => Iff.rfl, b.heap⟩

end Books

end Yuzu.Service.NvCore
