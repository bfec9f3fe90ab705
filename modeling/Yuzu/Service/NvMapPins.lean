/-
  File:      Yuzu/Service/NvMapPins.lean
  Subject:   What a pin of nvmap promises: over any run of the calls a pinned handle is mapped and
             not in the unmap queue, and a handle in the queue is mapped and not pinned.

  The promise fails where a handle is unpinned that is not pinned (a forced unmap sets the pins of
  a handle that others still hold to 0), where a mapped handle is given its address late, and where
  an allocator has no room: the loop that should then unmap the handles of the queue never does.
-/
import Mathlib.Data.List.Nodup
import Yuzu.Lib.Trace
import Yuzu.Service.NvMapBooks

namespace Yuzu.Service.NvCore

open List Option

variable {c : Container} {n n' : NvMap} {objects : List Handle} {smmu : Smmu} {low : LowArea}
  {ranges : SessionId → Nat → Nat} {o : Nat} {h h' : Handle} {id : HandleId}

/-! ## 1. The invariant -/

/-- Where a handle in the heap of its session is. -/
def Handle.Placed (c : Container) (h : Handle) : Prop :=
  ∃ m, c.mapper h.sessionId = some m ∧ m.vaddress ≤ h.address ∧
    h.address + h.alignedSize ≤ m.vaddress + m.size ∧
    h.dAddress = m.daddress + (h.address - m.vaddress)

/-- **A handle between two calls**: it has an address exactly while it is pinned or in the queue,
and never both. -/
structure Handle.Ok (c : Container) (h : Handle) : Prop where
  pins_nonneg : 0 ≤ h.pins
  address_iff : h.dAddress ≠ 0 ↔ 0 < h.pins ∨ h.unmapQueueEntry ≠ none
  pins_of_entry : h.unmapQueueEntry ≠ none → h.pins = 0
  nowhere : h.dAddress = 0 → h.pinVirtAddress = 0 ∧ h.inHeap = false
  placed : h.inHeap = true → h.Placed c

/-- The queue and the entries of the handles agree. -/
structure Queued (objects : List Handle) (queue : List (Nat × Nat)) (next : Nat) : Prop where
  mem_iff : ∀ e o, (e, o) ∈ queue ↔ ∃ h, objects[o]? = some h ∧ h.unmapQueueEntry = some e
  nodes : (queue.map Prod.fst).Nodup
  lt : ∀ q ∈ queue, q.1 < next

structure Inv (c : Container) (n : NvMap) : Prop where
  ok : ∀ (o : Nat) (h : Handle), n.objects[o]? = some h → h.Ok c
  queued : Queued n.objects n.unmapQueue n.nextNode
  books : Books c n.objects n.smmu n.lowArea n.heapRanges

namespace Queued

variable {queue : List (Nat × Nat)} {next : Nat}

theorem node_unique (hq : Queued objects queue next) {e p : Nat} (ho : (e, o) ∈ queue)
    (hp : (e, p) ∈ queue) : o = p :=
  congrArg Prod.snd (inj_on_of_nodup_map hq.nodes ho hp rfl)

theorem handles_nodup (hq : Queued objects queue next) : (queue.map Prod.snd).Nodup := by
  have hnodup : queue.Nodup := hq.nodes.of_map _
  refine List.Nodup.map_on ?_ hnodup
  rintro ⟨e, o⟩ hmem ⟨e', o'⟩ hmem' rfl
  obtain ⟨h, ho, he⟩ := (hq.mem_iff e o).mp hmem
  obtain ⟨h', ho', he'⟩ := (hq.mem_iff e' o).mp hmem'
  rw [ho] at ho'
  cases ho'
  rw [he] at he'
  cases he'
  rfl

theorem set_same (hq : Queued objects queue next) (ho : objects[o]? = some h)
    (hentry : h'.unmapQueueEntry = h.unmapQueueEntry) : Queued (objects.set o h') queue next := by
  refine ⟨fun e p => ?_, hq.nodes, hq.lt⟩
  rw [hq.mem_iff]
  by_cases hp : o = p
  · subst hp
    rw [List.getElem?_set_self (List.getElem?_eq_some_iff.mp ho).1, ho]
    simp only [Option.some.injEq, exists_eq_left', hentry]
  · rw [List.getElem?_set_ne hp]

/-- A handle leaves the queue, if it is there. -/
theorem dequeue (hq : Queued objects n.unmapQueue next) (ho : objects[o]? = some h)
    (hentry : h'.unmapQueueEntry = none) : Queued (objects.set o h') (n.dequeue h) next := by
  cases he : h.unmapQueueEntry with
  | none =>
    simp only [NvMap.dequeue, he]
    exact hq.set_same ho (hentry.trans he.symm)
  | some e =>
    simp only [NvMap.dequeue, he]
    have hself : (e, o) ∈ n.unmapQueue := (hq.mem_iff e o).mpr ⟨h, ho, he⟩
    refine ⟨fun e' p => ?_, (hq.nodes.sublist (filter_sublist.map _)),
      fun q hmem => hq.lt q (mem_of_mem_filter hmem)⟩
    rw [mem_filter, decide_eq_true_eq]
    by_cases hp : o = p
    · subst hp
      rw [List.getElem?_set_self (List.getElem?_eq_some_iff.mp ho).1]
      constructor
      · rintro ⟨hmem, hne⟩
        obtain ⟨h1, ho1, he1⟩ := (hq.mem_iff e' o).mp hmem
        rw [ho] at ho1
        cases ho1
        rw [he] at he1
        cases he1
        exact absurd rfl hne
      · rintro ⟨h1, ho1, he1⟩
        cases ho1
        rw [hentry] at he1
        cases he1
    · rw [List.getElem?_set_ne hp, hq.mem_iff]
      constructor
      · exact And.left
      · rintro ⟨h1, ho1, he1⟩
        refine ⟨⟨h1, ho1, he1⟩, fun heq => hp ?_⟩
        dsimp only at heq
        subst heq
        exact hq.node_unique hself ((hq.mem_iff e' p).mpr ⟨h1, ho1, he1⟩)

theorem push (hq : Queued objects queue next) (ho : objects[o]? = some h)
    (hold : h.unmapQueueEntry = none) (hnew : h'.unmapQueueEntry = some next) :
    Queued (objects.set o h') (queue ++ [(next, o)]) (next + 1) := by
  refine ⟨fun e p => ?_, ?_, fun q hmem => ?_⟩
  · rw [mem_append, hq.mem_iff, mem_singleton, Prod.mk.injEq]
    by_cases hp : o = p
    · subst hp
      rw [List.getElem?_set_self (List.getElem?_eq_some_iff.mp ho).1, ho]
      simp only [Option.some.injEq, exists_eq_left', hold, hnew, reduceCtorEq, false_or, and_true]
      exact eq_comm
    · rw [List.getElem?_set_ne hp]
      simp only [Ne.symm hp, and_false, or_false]
  · rw [map_append, nodup_append]
    refine ⟨hq.nodes, nodup_singleton _, fun a ha b hb => ?_⟩
    obtain ⟨q, hmem, rfl⟩ := mem_map.mp ha
    have hlt := hq.lt q hmem
    rw [map_singleton, mem_singleton] at hb
    omega
  · rcases mem_append.mp hmem with hmem | hmem
    · have hlt := hq.lt q hmem
      omega
    · rw [mem_singleton.mp hmem]
      exact Nat.lt_succ_self next

theorem append_new (hq : Queued objects queue next) (size : Nat) :
    Queued (objects ++ [Handle.new size id]) queue next := by
  refine ⟨fun e p => ?_, hq.nodes, hq.lt⟩
  rw [hq.mem_iff, List.getElem?_append]
  split
  · rfl
  · rename_i hp
    rw [List.getElem?_eq_none (Nat.not_lt.mp hp), List.getElem?_singleton]
    constructor
    · rintro ⟨h1, ho1, -⟩
      cases ho1
    · rintro ⟨h1, ho1, he1⟩
      split at ho1
      · cases ho1
        cases he1
      · cases ho1

end Queued

namespace Inv

theorem start (hs : NvMap.IsStart c n) : Inv c n := by
  have hnone : ∀ p : Nat, n.objects[p]? = none := fun p => by rw [hs.objects]; rfl
  have hlow : ∀ p, lowLeases n.objects p = none := fun p => by rw [lowLeases, hnone]; rfl
  have hdevice : ∀ p, deviceLeases c n.objects (.inr p) = none := fun p => by
    rw [deviceLeases, hnone]
    rfl
  have harea : ∀ x l, deviceLeases c n.objects x = some l → ∃ s m, x = .inl s ∧
      c.mapper s = some m ∧ l = ⟨m.daddress, 0, m.size, fun i => (s, i)⟩ := by
    intro x l hl
    cases x with
    | inl s =>
      obtain ⟨m, hm, rfl⟩ := map_eq_some_iff.mp hl
      exact ⟨s, m, rfl, hm, rfl⟩
    | inr p => rw [hdevice p] at hl; cases hl
  refine ⟨fun o h ho => ?_, ⟨fun e o => ?_, ?_, ?_⟩, ⟨⟨?_, ?_, ?_, ?_⟩, ⟨?_, ?_, ?_, ?_⟩, ?_, ?_⟩⟩
  · rw [hnone] at ho
    cases ho
  · rw [hs.unmapQueue, hnone]
    simp only [not_mem_nil, reduceCtorEq, false_and, exists_false]
  · rw [hs.unmapQueue]
    exact nodup_nil
  · rw [hs.unmapQueue]
    exact fun q hq => absurd hq not_mem_nil
  · intro x x' l l' r hl hl' hr hr'
    obtain ⟨s, m, rfl, hm, rfl⟩ := harea x l hl
    obtain ⟨s', m', rfl, hm', rfl⟩ := harea x' l' hl'
    rw [c.apart s s' m m' r hm hm' hr hr']
  · intro x l r hl hr
    obtain ⟨s, m, rfl, hm, rfl⟩ := harea x l hl
    exact hs.held s m r hm hr
  · intro x l hl
    obtain ⟨s, m, rfl, hm, rfl⟩ := harea x l hl
    exact Nat.zero_le _
  · intro x l i hl hi
    obtain ⟨s, m, rfl, hm, rfl⟩ := harea x l hl
    exact absurd hi (Nat.not_lt_zero i)
  · intro p p' l l' r hl
    rw [hlow] at hl
    cases hl
  · intro p l r hl
    rw [hlow] at hl
    cases hl
  · intro p l hl
    rw [hlow] at hl
    cases hl
  · intro p l i hl
    rw [hlow] at hl
    cases hl
  · intro s v
    rw [hs.heapRanges, hs.objects, countP_nil]
  · intro s m v _ _ _ hcount
    rw [hs.heapRanges] at hcount
    exact absurd hcount (Nat.not_lt_zero 0)

theorem ok_set (i : Inv c n) (hok : h'.Ok c) {p : Nat} {g : Handle}
    (hp : (n.objects.set o h')[p]? = some g) : g.Ok c := by
  rw [List.getElem?_set] at hp
  split at hp
  · split at hp
    · cases hp
      exact hok
    · cases hp
  · exact i.ok p g hp

/-- **A change of a handle that leaves its place alone** keeps the invariant. -/
theorem set_same (i : Inv c n) (ho : n.objects[o]? = some h) (hok : h'.Ok c)
    (hentry : h'.unmapQueueEntry = h.unmapQueueEntry) (hdevice : h'.deviceLease = h.deviceLease)
    (hlow : h'.lowLease = h.lowLease) (hheap : ∀ s v, h'.InHeapAt s v ↔ h.InHeapAt s v) :
    Inv c (n.setHandle o h') :=
  ⟨fun _ _ => i.ok_set hok, i.queued.set_same ho hentry, i.books.set_same ho hdevice hlow hheap⟩

end Inv

theorem getHandle_eq_some (hget : n.getHandle id = some (o, h)) : n.objects[o]? = some h := by
  simp only [NvMap.getHandle, bind_eq_bind, bind_eq_some_iff] at hget
  obtain ⟨p, -, g, hg, heq⟩ := hget
  cases heq
  exact hg

/-! ## 2. The conditions of a call -/

/-- What the allocators promise: an answer that is not 0 is the start of a free range. -/
def Granted (n : NvMap) : NvMap.Call → Prop
  | .pinHandle id _ answers lowAnswer => ∀ o h, n.getHandle id = some (o, h) →
      (∀ a ∈ answers, a ≠ 0 → ∀ r, a ≤ r → r < a + h.deviceSize → n.smmu.held r = false) ∧
      (lowAnswer ≠ 0 → ∀ r, lowAnswer ≤ r → r < lowAnswer + h.lowSize → n.lowArea.held r = false)
  | _ => True

/-- The preallocated area that a handle is mapped in. -/
def Handle.area (c : Container) (h : Handle) : Option HeapMapper :=
  (c.mapper h.sessionId).filter (·.isInBounds h.address h.alignedSize)

/-- `smmu.Allocate` has room at once, or while there are handles in the queue. -/
def Obtains (n : NvMap) (answers : List Nat) : Prop :=
  (∃ a ∈ answers, a ≠ 0) ∧ (answers.head? = some 0 → n.unmapQueue ≠ [])

/-- An `Alloc` of a mapped handle leaves it where it is. -/
def Handle.SamePlace (h h' : Handle) : Prop :=
  h'.address = h.address ∧ h'.alignedSize = h.alignedSize ∧ h'.sessionId = h.sessionId

/-- **Where the pins are in balance**: what is unpinned is pinned, what is given its address is not
mapped, and what is pinned finds room. -/
def Balanced (c : Container) (n : NvMap) : NvMap.Call → Prop
  | .alloc id pFlags pAlign pKind pAddress pSessionId => ∀ o h, n.getHandle id = some (o, h) →
      h.allocated = true ∨ h.dAddress = 0 ∨ h.SamePlace (h.alloc pFlags pAlign pKind pAddress pSessionId).2
  | .pinHandle id lowAreaPin answers lowAnswer => ∀ o h, n.getHandle id = some (o, h) →
      (h.dAddress = 0 → (h.area c ≠ none → h.address + h.alignedSize < 2 ^ 64) ∧
        (h.area c = none → h.alignedSize ≤ h.deviceSize ∧ Obtains n answers)) ∧
      (lowAreaPin = true → h.pinVirtAddress = 0 → lowAnswer ≠ 0 ∧ h.alignedSize < 2 ^ 32)
  | .unpinHandle id => ∀ o h, n.getHandle id = some (o, h) → 0 < h.pins
  | _ => True

/-! ## 3. The calls that do not pin -/

theorem createHandle_inv (i : Inv c n) (size : Nat) : Inv c (n.createHandle size).2 := by
  unfold NvMap.createHandle
  split
  · exact i
  · have hnew : ∀ m : NvMap, m.objects = n.objects ++ [Handle.new size n.nextHandleId] →
        m.unmapQueue = n.unmapQueue → m.nextNode = n.nextNode → m.smmu = n.smmu →
        m.lowArea = n.lowArea → m.heapRanges = n.heapRanges → Inv c m := by
      intro m hobjects hqueue hnext hsmmu hlow hranges
      refine ⟨fun o h ho => ?_, ?_, ?_⟩
      · rw [hobjects, List.getElem?_append] at ho
        split at ho
        · exact i.ok o h ho
        · rw [List.getElem?_singleton] at ho
          split at ho
          · cases ho
            refine ⟨Int.le_refl 0, ⟨fun hne => absurd rfl hne, ?_⟩, fun hne => absurd rfl hne,
              fun _ => ⟨rfl, rfl⟩, fun hne => nomatch hne⟩
            rintro (hpos | hne)
            · exact absurd hpos (Int.lt_irrefl 0)
            · exact absurd rfl hne
          · cases ho
      · rw [hobjects, hqueue, hnext]
        exact i.queued.append_new size
      · rw [hobjects, hsmmu, hlow, hranges]
        exact i.books.append_new size
    simp only [NvMap.addHandle]
    split <;> exact hnew _ rfl rfl rfl rfl rfl rfl

theorem alloc_frame (pFlags : UInt32) (pAlign : Nat) (pKind : UInt8) (pAddress : Nat)
    (pSessionId : SessionId) {h' : Handle}
    (heq : (h.alloc pFlags pAlign pKind pAddress pSessionId).2 = h') :
    h'.pins = h.pins ∧ h'.unmapQueueEntry = h.unmapQueueEntry ∧ h'.dAddress = h.dAddress ∧
      h'.inHeap = h.inHeap ∧ h'.pinVirtAddress = h.pinVirtAddress := by
  subst heq
  unfold Handle.alloc
  split <;> exact ⟨rfl, rfl, rfl, rfl, rfl⟩

theorem alloc_inv (i : Inv c n) {pFlags : UInt32} {pAlign : Nat} {pKind : UInt8} {pAddress : Nat}
    {pSessionId : SessionId} (hb : Balanced c n (.alloc id pFlags pAlign pKind pAddress pSessionId)) :
    Inv c (n.alloc id pFlags pAlign pKind pAddress pSessionId).2 := by
  unfold NvMap.alloc
  cases hget : n.getHandle id with
  | none => exact i
  | some oh =>
    obtain ⟨o, h⟩ := oh
    have ho := getHandle_eq_some hget
    have hok := i.ok o h ho
    generalize heq : (h.alloc pFlags pAlign pKind pAddress pSessionId).2 = h'
    obtain ⟨hpins, hentry, hd, hheap, hlow⟩ := alloc_frame pFlags pAlign pKind pAddress pSessionId heq
    have hplace : h.dAddress = 0 ∨ h.SamePlace h' := by
      rcases hb o h hget with hall | h0 | hsame
      · have hh : h' = h := by rw [← heq, Handle.alloc, if_pos hall]
        exact .inr (hh ▸ ⟨rfl, rfl, rfl⟩)
      · exact .inl h0
      · exact .inr (heq ▸ hsame)
    have hset : Inv c (n.setHandle o h') := by
      refine i.set_same ho ⟨?_, ?_, ?_, ?_, ?_⟩ hentry ?_ ?_ ?_
      · exact hpins ▸ hok.pins_nonneg
      · rw [hd, hpins, hentry]
        exact hok.address_iff
      · rw [hpins, hentry]
        exact hok.pins_of_entry
      · rw [hd, hlow, hheap]
        exact hok.nowhere
      · rcases hplace with h0 | ⟨haddress, hsize, hsession⟩
        · rw [hheap, (hok.nowhere h0).2]
          exact fun hne => nomatch hne
        · rw [hheap, Handle.Placed, haddress, hsize, hsession, hd]
          exact hok.placed
      · rcases hplace with h0 | ⟨haddress, hsize, hsession⟩
        · rw [Handle.deviceLease, Handle.deviceLease, if_neg (fun hne => hne.1 (hd.trans h0)),
            if_neg (fun hne => hne.1 h0)]
        · rw [Handle.deviceLease, Handle.deviceLease, Handle.deviceSize, Handle.deviceSize,
            haddress, hsize, hsession, hd, hheap]
      · rcases hplace with h0 | ⟨haddress, hsize, hsession⟩
        · have hnowhere := (hok.nowhere h0).1
          rw [Handle.lowLease, Handle.lowLease, if_neg (not_not.mpr (hlow.trans hnowhere)),
            if_neg (not_not.mpr hnowhere)]
        · rw [Handle.lowLease, Handle.lowLease, Handle.lowSize, Handle.lowSize, hsize, hd, hlow]
      · intro s v
        rcases hplace with h0 | ⟨haddress, hsize, hsession⟩
        · rw [Handle.InHeapAt, Handle.InHeapAt, hheap, (hok.nowhere h0).2]
          simp only [Bool.false_eq_true, false_and]
        · rw [Handle.InHeapAt, Handle.InHeapAt, hheap, haddress, hsize, hsession]
    rw [← heq] at hset
    exact hset

theorem Handle.Ok.references (hok : h.Ok c) (dupes internalDupes : Int) :
    ({ h with dupes := dupes, internalDupes := internalDupes } : Handle).Ok c :=
  ⟨hok.pins_nonneg, hok.address_iff, hok.pins_of_entry, hok.nowhere, hok.placed⟩

theorem Inv.references (i : Inv c n) (ho : n.objects[o]? = some h) (dupes internalDupes : Int) :
    Inv c (n.setHandle o { h with dupes := dupes, internalDupes := internalDupes }) :=
  i.set_same ho ((i.ok o h ho).references dupes internalDupes) rfl rfl rfl fun _ _ => Iff.rfl

theorem duplicateHandle_inv (i : Inv c n) (internalSession : Bool) :
    Inv c (n.duplicateHandle id internalSession) := by
  unfold NvMap.duplicateHandle
  cases hget : n.getHandle id with
  | none => exact i
  | some oh =>
    obtain ⟨o, h⟩ := oh
    have ho := getHandle_eq_some hget
    simp only [Handle.duplicate]
    split
    · exact i.references ho h.dupes h.internalDupes
    · split
      · exact i.references ho h.dupes (h.internalDupes + 1)
      · exact i.references ho (h.dupes + 1) h.internalDupes

theorem unpinHandle_inv (i : Inv c n) (hb : Balanced c n (.unpinHandle id)) : Inv c (n.unpinHandle id) := by
  unfold NvMap.unpinHandle
  cases hget : n.getHandle id with
  | none => exact i
  | some oh =>
    obtain ⟨o, h⟩ := oh
    have ho := getHandle_eq_some hget
    have hok := i.ok o h ho
    have hpos : 0 < h.pins := hb o h hget
    have hd : h.dAddress ≠ 0 := hok.address_iff.mpr (.inl hpos)
    have hentry : h.unmapQueueEntry = none := by
      by_contra hne
      have hzero := hok.pins_of_entry hne
      omega
    dsimp only
    split
    · rename_i hlast
      have hok' : ({ h with pins := h.pins - 1, unmapQueueEntry := some n.nextNode } : Handle).Ok c :=
        ⟨hlast.ge, ⟨fun _ => .inr (some_ne_none _), fun _ => hd⟩, fun _ => hlast,
          fun h0 => absurd h0 hd, hok.placed⟩
      exact ⟨fun _ _ => i.ok_set hok', i.queued.push ho hentry rfl,
        i.books.set_same ho rfl rfl fun _ _ => Iff.rfl⟩
    · rename_i hmore
      refine i.set_same ho ⟨?_, ⟨fun _ => .inl ?_, fun _ => hd⟩, fun hne => absurd hentry hne,
        fun h0 => absurd h0 hd, hok.placed⟩ rfl rfl rfl fun _ _ => Iff.rfl
      · dsimp only
        omega
      · dsimp only
        omega

/-- **A forced unmap**: the handle is nowhere, and the rest of the books is as before. -/
theorem unmapHandle_spec (i : Inv c n) (ho : n.objects[o]? = some h) (hd : h.dAddress ≠ 0) :
    ∃ ranges smmu, n.unmapHandle c o h = some { n with
        objects := n.objects.set o { h with
          unmapQueueEntry := none, pinVirtAddress := 0, dAddress := 0, inHeap := false }
        unmapQueue := n.dequeue h
        lowArea := NvMap.releaseLow h n.lowArea
        smmu := smmu
        heapRanges := ranges } ∧
      Books c (n.objects.set o { h with
          unmapQueueEntry := none, pinVirtAddress := 0, dAddress := 0, inHeap := false })
        smmu (NvMap.releaseLow h n.lowArea) ranges := by
  have hlow := i.books.releaseLow ho
  have hlt := (List.getElem?_eq_some_iff.mp ho).1
  have ho' : (n.objects.set o { h with pinVirtAddress := 0 })[o]? =
      some { h with pinVirtAddress := 0 } := List.getElem?_set_self hlt
  have hstep : ∀ {ranges smmu}, Books c ((n.objects.set o { h with pinVirtAddress := 0 }).set o
      { h with pinVirtAddress := 0, dAddress := 0, inHeap := false }) smmu
      (NvMap.releaseLow h n.lowArea) ranges → Books c (n.objects.set o { h with
          unmapQueueEntry := none, pinVirtAddress := 0, dAddress := 0, inHeap := false })
        smmu (NvMap.releaseLow h n.lowArea) ranges := by
    intro ranges smmu b
    rw [set_set] at b
    have hb := @Books.set_same _ _ _ _ _ o _ { h with
      unmapQueueEntry := none, pinVirtAddress := 0, dAddress := 0, inHeap := false }
        b (List.getElem?_set_self hlt) rfl rfl fun _ _ => Iff.rfl
    rwa [set_set] at hb
  cases hheap : h.inHeap with
  | true =>
    obtain ⟨m, hm, -, hend, -⟩ := (i.ok o h ho).placed hheap
    have hmod : (h.address + h.alignedSize) % 2 ^ 64 ≤ m.vaddress + m.size :=
      (Nat.mod_le _ _).trans hend
    refine ⟨_, _, ?_, hstep (hlow.releaseHeap ho' rfl hheap hm hmod)⟩
    simp only [NvMap.unmapHandle, NvMap.releaseDevice, hheap, hm, Bool.not_true,
      Bool.false_eq_true, if_false, map_some]
    rfl
  | false =>
    refine ⟨_, _, ?_, hstep (hlow.releaseSmmu ho' rfl hheap hd)⟩
    simp only [NvMap.unmapHandle, NvMap.releaseDevice, hheap, Bool.not_false, if_true]
    rfl

theorem forceUnmap_inv (i : Inv c n) (ho : n.objects[o]? = some h) :
    ∃ n' h', (if h.dAddress ≠ 0 then n.unmapHandle c o h else some n) = some n' ∧
      n'.objects[o]? = some h' ∧ Inv c (n'.setHandle o { h' with pins := 0 }) := by
  have hlt := (List.getElem?_eq_some_iff.mp ho).1
  have hok := i.ok o h ho
  by_cases hd : h.dAddress = 0
  · have hpins : h.pins = 0 := by
      have hnonneg := hok.pins_nonneg
      have hnot : ¬ 0 < h.pins := fun hpos => hok.address_iff.mpr (.inl hpos) hd
      omega
    refine ⟨n, h, if_neg (not_not.mpr hd), ho, i.set_same ho ?_ rfl rfl rfl fun _ _ => Iff.rfl⟩
    rw [← hpins]
    exact hok
  · obtain ⟨ranges, smmu, heq, hbooks⟩ := unmapHandle_spec i ho hd
    refine ⟨_, _, (if_pos hd).trans heq, List.getElem?_set_self hlt, fun p g hp => ?_, ?_, ?_⟩
    · dsimp only [NvMap.setHandle] at hp
      rw [set_set] at hp
      refine i.ok_set ⟨Int.le_refl 0, ⟨fun hne => absurd rfl hne, ?_⟩, fun _ => rfl,
        fun _ => ⟨rfl, rfl⟩, fun hne => absurd hne Bool.false_ne_true⟩ hp
      rintro (hpos | hne)
      · exact absurd hpos (Int.lt_irrefl 0)
      · exact absurd rfl hne
    · dsimp only [NvMap.setHandle]
      rw [set_set]
      exact i.queued.dequeue ho rfl
    · exact hbooks.set_same (List.getElem?_set_self hlt) rfl rfl fun _ _ => Iff.rfl

theorem dropReference_inv (i : Inv c n) (ho : n.objects[o]? = some h) (internalSession : Bool) :
    ∃ n' h', n.dropReference c o h internalSession = some n' ∧ n'.objects[o]? = some h' ∧ Inv c n' := by
  have hlt := (List.getElem?_eq_some_iff.mp ho).1
  unfold NvMap.dropReference
  split
  · exact ⟨_, _, rfl, List.getElem?_set_self hlt, i.references ho h.dupes (h.internalDupes - 1)⟩
  · split
    · obtain ⟨n', h', heq, ho', i'⟩ := forceUnmap_inv (i.references ho (h.dupes - 1) h.internalDupes)
        (List.getElem?_set_self hlt)
      refine ⟨n'.setHandle o { h' with pins := 0 }, { h' with pins := 0 }, ?_,
        List.getElem?_set_self (List.getElem?_eq_some_iff.mp ho').1, i'⟩
      simp only at heq
      by_cases hd : h.dAddress ≠ 0
      · simp only [if_pos hd] at heq ⊢
        simp only [heq, bind_eq_bind, bind_some, ho']
        rfl
      · simp only [if_neg hd, Option.some.injEq] at heq ⊢
        simp only [heq, bind_eq_bind, bind_some, ho']
        rfl
    · exact ⟨_, _, rfl, List.getElem?_set_self hlt, i.references ho (h.dupes - 1) h.internalDupes⟩

theorem freeHandle_inv (i : Inv c n) (internalSession : Bool) :
    ∃ r n', n.freeHandle c id internalSession = some (r, n') ∧ Inv c n' := by
  unfold NvMap.freeHandle
  cases hget : n.getHandle id with
  | none => exact ⟨_, _, rfl, i⟩
  | some oh =>
    obtain ⟨o, h⟩ := oh
    obtain ⟨n', h', heq, ho', i'⟩ := dropReference_inv i (getHandle_eq_some hget) internalSession
    simp only [heq, bind_eq_bind, bind_some, ho']
    refine ⟨_, _, rfl, ?_⟩
    unfold NvMap.tryRemoveHandle
    split
    · exact ⟨i'.ok, i'.queued, i'.books⟩
    · exact i'

/-! ## 4. Pins -/

/-- **A mapped handle**: the SMMU leads every unit of its range to its memory. -/
def Handle.Mapped (h : Handle) (smmu : Smmu) : Prop :=
  h.dAddress ≠ 0 ∧ ∀ k < h.alignedSize, smmu.entry (h.dAddress + k) = some (h.sessionId, h.address + k)

theorem Inv.mapped (i : Inv c n) (ho : n.objects[o]? = some h) (hd : h.dAddress ≠ 0) : h.Mapped n.smmu := by
  refine ⟨hd, fun k hk => ?_⟩
  cases hheap : h.inHeap with
  | false =>
    have hlease : deviceLeases c n.objects (.inr o) = some ⟨h.dAddress, h.alignedSize,
        h.deviceSize, fun i => (h.sessionId, h.address + i)⟩ := by
      rw [deviceLeases_of_get ho]
      exact if_pos ⟨hd, hheap⟩
    exact i.books.device.served _ _ k hlease hk
  | true =>
    obtain ⟨m, hm, hle, hend, hplace⟩ := (i.ok o h ho).placed hheap
    have hlt := m.vaddress_lt
    have hin : h.InHeapAt h.sessionId (h.address + k) :=
      ⟨hheap, rfl, by omega, by rw [Nat.mod_eq_of_lt (by omega)]; omega⟩
    have hcount : 0 < n.heapRanges h.sessionId (h.address + k) := by
      rw [i.books.counts]
      exact countP_pos_iff.mpr ⟨h, mem_of_getElem? ho, decide_eq_true hin⟩
    have hentry := i.books.heap _ m (h.address + k) hm (by omega) (by omega) hcount
    have hat : m.daddress + (h.address + k - m.vaddress) = h.dAddress + k := by omega
    rwa [hat] at hentry

theorem Inv.mapped_low (i : Inv c n) (ho : n.objects[o]? = some h) (hp : h.pinVirtAddress ≠ 0)
    {k : Nat} (hk : k < h.alignedSize) :
    n.lowArea.entry (h.pinVirtAddress + k) = some (h.dAddress + k) := by
  have hlease : lowLeases n.objects o =
      some ⟨h.pinVirtAddress, h.alignedSize, h.lowSize, fun i => h.dAddress + i⟩ := by
    rw [lowLeases_of_get ho]
    exact if_pos hp
  exact i.books.low.served _ _ k hlease hk

theorem allocateDevice_spec {size d : Nat} {answers : List Nat}
    (heq : n.allocateDevice c 0 size answers = some (d, n')) :
    d ≠ 0 ∧ d ∈ answers ∧ n' = { n with smmu := n.smmu.allocate d size } := by
  induction answers with
  | nil => cases heq
  | cons a answers ih =>
    simp only [NvMap.allocateDevice] at heq
    split at heq
    · rename_i ha
      cases heq
      exact ⟨ha, mem_cons_self, rfl⟩
    · split at heq
      · cases heq
      · simp only [ne_eq, not_true_eq_false, if_false, bind_eq_bind, bind_eq_some_iff] at heq
        obtain ⟨g, -, n1, hn1, heq⟩ := heq
        cases hn1
        obtain ⟨hd, hmem, hn⟩ := ih heq
        exact ⟨hd, mem_cons_of_mem _ hmem, hn⟩

theorem allocateDevice_returns (i : Inv c n) {size : Nat} {answers : List Nat}
    (hobtains : Obtains n answers) : ∃ r, n.allocateDevice c 0 size answers = some r := by
  obtain ⟨hex, hhead⟩ := hobtains
  induction answers with
  | nil =>
    obtain ⟨a, ha, -⟩ := hex
    exact absurd ha not_mem_nil
  | cons a answers ih =>
    simp only [NvMap.allocateDevice]
    by_cases ha : a = 0
    · subst ha
      have hqueue := hhead rfl
      rw [if_neg (not_not.mpr rfl)]
      split
      · rename_i hempty
        exact absurd hempty hqueue
      · rename_i e front rest hcons
        have hfront : (e, front) ∈ n.unmapQueue := by
          rw [hcons]
          exact mem_cons_self
        obtain ⟨g, hg, -⟩ := (i.queued.mem_iff e front).mp hfront
        simp only [hg, ne_eq, not_true_eq_false, if_false, bind_eq_bind, bind_some]
        refine ih ?_ fun _ => hqueue
        obtain ⟨b, hb, hne⟩ := hex
        rcases mem_cons.mp hb with rfl | hb
        · exact absurd rfl hne
        · exact ⟨b, hb, hne⟩
    · exact ⟨_, if_pos ha⟩

theorem area_eq_some {m : HeapMapper} (harea : h.area c = some m) :
    c.mapper h.sessionId = some m ∧ m.vaddress ≤ h.address ∧
      (h.address + h.alignedSize) % 2 ^ 64 ≤ m.vaddress + m.size := by
  obtain ⟨hm, hbounds⟩ := filter_eq_some_iff.mp harea
  simp only [HeapMapper.isInBounds, Bool.and_eq_true, decide_eq_true_eq] at hbounds
  exact ⟨hm, hbounds.1, hbounds.2⟩

/-- A handle that is nowhere gets a place. -/
theorem mapDevice_spec (i : Inv c n) (ho : n.objects[o]? = some h) (hd : h.dAddress = 0)
    {answers : List Nat} (hwrap : h.area c ≠ none → h.address + h.alignedSize < 2 ^ 64)
    (hfits : h.area c = none → h.alignedSize ≤ h.deviceSize)
    (hfree : ∀ a ∈ answers, a ≠ 0 → ∀ r, a ≤ r → r < a + h.deviceSize → n.smmu.held r = false)
    (heq : n.mapDevice c answers h = some (h', n')) :
    ∃ d inHeap smmu ranges, h' = { h with dAddress := d, inHeap := inHeap } ∧
      n' = { n with smmu := smmu, heapRanges := ranges } ∧ d ≠ 0 ∧
      (inHeap = true → h'.Placed c) ∧
      Books c (n.objects.set o h') smmu n.lowArea ranges := by
  obtain ⟨hlow, hheap⟩ := (i.ok o h ho).nowhere hd
  cases harea : h.area c with
  | some m =>
    obtain ⟨hm, hle, hend⟩ := area_eq_some harea
    have hlt := hwrap (by rw [harea]; exact some_ne_none m)
    rw [Nat.mod_eq_of_lt hlt] at hend
    have hdlt := m.daddress_lt
    have hdne := m.daddress_ne_zero
    have hdeq : (m.daddress + (h.address - m.vaddress)) % 2 ^ 64 =
      m.daddress + (h.address - m.vaddress) := Nat.mod_eq_of_lt (by omega)
    rw [Handle.area] at harea
    simp only [NvMap.mapDevice, harea, Option.some.injEq, Prod.mk.injEq] at heq
    obtain ⟨rfl, rfl⟩ := heq
    refine ⟨_, _, _, _, rfl, rfl, ?_, fun _ => ⟨m, hm, hle, hend, hdeq⟩,
      i.books.mapHeap ho hlow hheap hd hm ((Nat.mod_le _ _).trans hend)⟩
    rw [HeapMapper.map, hdeq]
    omega
  | none =>
    have hsize := hfits harea
    rw [Handle.area] at harea
    simp only [NvMap.mapDevice, harea, hd, bind_eq_bind, bind_eq_some_iff] at heq
    obtain ⟨⟨d, n1⟩, halloc, heq⟩ := heq
    obtain ⟨hdne, hmem, rfl⟩ := allocateDevice_spec halloc
    cases heq
    exact ⟨d, false, _, _, rfl, rfl, hdne, fun hne => absurd hne Bool.false_ne_true,
      i.books.mapSmmu ho hlow hheap hdne hsize (hfree d hmem hdne)⟩

/-- **The answer of a pin**: a mapped address, in the low area one that leads to the handle's. -/
def PinAnswer (lowAreaPin : Bool) (o : Nat) (d : Nat) (n : NvMap) : Prop :=
  d ≠ 0 ∧ ∃ h, n.objects[o]? = some h ∧ h.Mapped n.smmu ∧
    if lowAreaPin then ∀ k < h.alignedSize, n.lowArea.entry (d + k) = some (h.dAddress + k)
    else d = h.dAddress

variable {lowAreaPin : Bool}

/-- The end of a pin, for a handle that is mapped and not in the queue. -/
theorem completePin_inv (hlt : o < n.objects.length)
    (hothers : ∀ h' : Handle, h'.Ok c → ∀ (p : Nat) (g : Handle),
      (n.objects.set o h')[p]? = some g → g.Ok c)
    (hqueued : Queued (n.objects.set o h) n.unmapQueue n.nextNode)
    (hbooks : Books c (n.objects.set o h) n.smmu n.lowArea n.heapRanges)
    (hpins : 0 ≤ h.pins) (hentry : h.unmapQueueEntry = none) (hd : h.dAddress ≠ 0)
    (hplaced : h.inHeap = true → h.Placed c) {lowAnswer : Nat}
    (hlow : lowAreaPin = true → h.pinVirtAddress = 0 → lowAnswer ≠ 0 ∧ h.alignedSize < 2 ^ 32 ∧
      ∀ r, lowAnswer ≤ r → r < lowAnswer + h.lowSize → n.lowArea.held r = false) :
    Inv c (n.completePin lowAreaPin lowAnswer o h).2 ∧
      PinAnswer lowAreaPin o (n.completePin lowAreaPin lowAnswer o h).1
        (n.completePin lowAreaPin lowAnswer o h).2 := by
  have hself : (n.objects.set o h)[o]? = some h := List.getElem?_set_self hlt
  -- what is left to show once the place of the handle in the low area is known
  have hfinish : ∀ (v : Nat) (low : LowArea),
      Books c (n.objects.set o { h with pinVirtAddress := v }) n.smmu low n.heapRanges →
      Inv c ({ n with lowArea := low }.setHandle o { h with pinVirtAddress := v, pins := h.pins + 1 }) := by
    intro v low b
    have hself' : (n.objects.set o { h with pinVirtAddress := v })[o]? =
      some { h with pinVirtAddress := v } := List.getElem?_set_self hlt
    refine ⟨hothers _ ⟨?_, ⟨fun _ => .inl ?_, fun _ => hd⟩, fun hne => absurd hentry hne,
      fun h0 => absurd h0 hd, hplaced⟩, ?_, ?_⟩
    · dsimp only
      omega
    · dsimp only
      omega
    · have hq := @Queued.set_same _ _ _ { h with pinVirtAddress := v, pins := h.pins + 1 } _ _
          hqueued hself rfl
      rwa [set_set] at hq
    · have hb := @Books.set_same _ _ _ _ _ _ _
          { h with pinVirtAddress := v, pins := h.pins + 1 } b hself' rfl rfl fun _ _ => Iff.rfl
      rwa [set_set] at hb
  have hget : ∀ (v : Nat) (low : LowArea), ({ n with lowArea := low }.setHandle o
      { h with pinVirtAddress := v, pins := h.pins + 1 }).objects[o]? =
      some { h with pinVirtAddress := v, pins := h.pins + 1 } :=
    fun v low => List.getElem?_set_self hlt
  cases lowAreaPin with
  | false =>
    have i' := hfinish h.pinVirtAddress n.lowArea hbooks
    exact ⟨i', hd, _, hget _ _, i'.mapped (hget _ _) hd, rfl⟩
  | true =>
    by_cases hpin : h.pinVirtAddress = 0
    · obtain ⟨hne, hsize, hfree⟩ := hlow rfl hpin
      have hlowSize : h.lowSize = h.alignedSize := Nat.mod_eq_of_lt hsize
      have hb := hbooks.mapLow hself hne hlowSize.ge hfree
      rw [set_set] at hb
      have i' := hfinish lowAnswer _ hb
      simp only [NvMap.completePin, NvMap.mapLowArea, if_true, if_pos hpin, if_neg hne]
      exact ⟨i', hne, _, hget _ _, i'.mapped (hget _ _) hd,
        fun k hk => i'.mapped_low (hget _ _) hne hk⟩
    · have i' := hfinish h.pinVirtAddress n.lowArea hbooks
      simp only [NvMap.completePin, NvMap.mapLowArea, if_true, if_neg hpin]
      exact ⟨i', hpin, _, hget _ _, i'.mapped (hget _ _) hd,
        fun k hk => i'.mapped_low (hget _ _) hpin hk⟩

/-- **A pin** keeps the invariant, and answers with a mapped address if the handle lives. -/
theorem pinHandle_inv (i : Inv c n) {answers : List Nat} {lowAnswer d : Nat}
    (hg : Granted n (.pinHandle id lowAreaPin answers lowAnswer))
    (hb : Balanced c n (.pinHandle id lowAreaPin answers lowAnswer))
    (heq : n.pinHandle c id lowAreaPin answers lowAnswer = some (d, n')) :
    Inv c n' ∧ ∀ o h, n.getHandle id = some (o, h) → PinAnswer lowAreaPin o d n' := by
  unfold NvMap.pinHandle at heq
  cases hget : n.getHandle id with
  | none =>
    rw [hget] at heq
    cases heq
    exact ⟨i, fun o h hne => nomatch hne⟩
  | some oh =>
    obtain ⟨o, h⟩ := oh
    have ho := getHandle_eq_some hget
    have hok := i.ok o h ho
    have hlt := (List.getElem?_eq_some_iff.mp ho).1
    obtain ⟨hfree, hlowFree⟩ := hg o h hget
    obtain ⟨hroom, hlow⟩ := hb o h hget
    have hlowAnswer : lowAreaPin = true → h.pinVirtAddress = 0 → lowAnswer ≠ 0 ∧ h.alignedSize < 2 ^ 32 ∧
        ∀ r, lowAnswer ≤ r → r < lowAnswer + h.lowSize → n.lowArea.held r = false := by
      intro hpin h0
      obtain ⟨hne, hsize⟩ := hlow hpin h0
      exact ⟨hne, hsize, hlowFree hne⟩
    have hothers : ∀ h' : Handle, h'.Ok c → ∀ (p : Nat) (g : Handle),
        (n.objects.set o h')[p]? = some g → g.Ok c := fun h' hok' _ _ => i.ok_set hok'
    have hdone : ∀ {r : Nat × NvMap}, some r = some (d, n') → Inv c r.2 ∧ PinAnswer lowAreaPin o r.1 r.2 →
        Inv c n' ∧ ∀ o' h', some (o, h) = some (o', h') → PinAnswer lowAreaPin o' d n' := by
      rintro r hr ⟨hinv, hanswer⟩
      cases hr
      exact ⟨hinv, fun o' h' he => by cases he; exact hanswer⟩
    rw [hget] at heq
    simp only at heq
    split at heq
    · rename_i hpins
      split at heq
      · -- in the queue
        rename_i hentry
        refine hdone heq ?_
        exact completePin_inv (n := { n with unmapQueue := n.dequeue h })
          (h := { h with unmapQueueEntry := none }) hlt hothers (i.queued.dequeue ho rfl)
          (i.books.set_same ho rfl rfl fun _ _ => Iff.rfl) hok.pins_nonneg rfl
          (hok.address_iff.mpr (.inr hentry)) hok.placed hlowAnswer
      · -- nowhere
        rename_i hentry
        have hd : h.dAddress = 0 := by
          by_contra hne
          rcases hok.address_iff.mp hne with hpos | hqueued
          · omega
          · exact hentry hqueued
        simp only [bind_eq_bind, bind_eq_some_iff] at heq
        obtain ⟨⟨h', n1⟩, hmap, heq⟩ := heq
        obtain ⟨hwrap, hfits⟩ := hroom hd
        obtain ⟨a, inHeap, smmu, ranges, rfl, rfl, hne, hplaced, hbooks⟩ :=
          mapDevice_spec i ho hd hwrap (fun harea => (hfits harea).1) hfree hmap
        refine hdone heq ?_
        exact completePin_inv (n := { n with smmu := smmu, heapRanges := ranges })
          (h := { h with dAddress := a, inHeap := inHeap }) hlt hothers
          (i.queued.set_same ho rfl) hbooks hok.pins_nonneg (not_not.mp hentry) hne hplaced hlowAnswer
    · -- pinned
      rename_i hpins
      have hpos : 0 < h.pins := by
        have hnonneg := hok.pins_nonneg
        omega
      have hself : n.objects.set o h = n.objects := by
        obtain ⟨hlt, hget⟩ := List.getElem?_eq_some_iff.mp ho
        rw [← hget]
        exact set_getElem_self hlt
      have hqueued : Queued (n.objects.set o h) n.unmapQueue n.nextNode := by
        rw [hself]
        exact i.queued
      have hbooks : Books c (n.objects.set o h) n.smmu n.lowArea n.heapRanges := by
        rw [hself]
        exact i.books
      refine hdone heq ?_
      refine completePin_inv hlt hothers hqueued hbooks hok.pins_nonneg ?_
        (hok.address_iff.mpr (.inl hpos)) hok.placed hlowAnswer
      by_contra hne
      exact hpins (hok.pins_of_entry hne)

/-- A pin of a live handle returns. -/
theorem pinHandle_returns (i : Inv c n) {answers : List Nat} {lowAnswer : Nat}
    (hb : Balanced c n (.pinHandle id lowAreaPin answers lowAnswer)) :
    ∃ d n', n.pinHandle c id lowAreaPin answers lowAnswer = some (d, n') := by
  unfold NvMap.pinHandle
  cases hget : n.getHandle id with
  | none => exact ⟨_, _, rfl⟩
  | some oh =>
    obtain ⟨o, h⟩ := oh
    have hok := i.ok o h (getHandle_eq_some hget)
    simp only
    split
    · split
      · exact ⟨_, _, rfl⟩
      · rename_i hpins hentry
        have hd : h.dAddress = 0 := by
          by_contra hne
          rcases hok.address_iff.mp hne with hpos | hqueued
          · omega
          · exact hentry hqueued
        have hmap : ∃ r, n.mapDevice c answers h = some r := by
          cases harea : h.area c with
          | some m =>
            rw [Handle.area] at harea
            simp only [NvMap.mapDevice, harea]
            exact ⟨_, rfl⟩
          | none =>
            obtain ⟨r, hr⟩ := @allocateDevice_returns c _ i h.deviceSize _ (((hb o h hget).1 hd).2 harea).2
            rw [Handle.area] at harea
            simp only [NvMap.mapDevice, harea, hd, hr, bind_eq_bind, bind_some]
            exact ⟨_, rfl⟩
        obtain ⟨r, hr⟩ := hmap
        simp only [hr, bind_eq_bind, bind_some]
        exact ⟨_, _, rfl⟩
    · exact ⟨_, _, rfl⟩

/-! ## 5. Runs -/

/-- What holds of the pins between two calls. -/
structure PinsMapped (n : NvMap) : Prop where
  pinned : ∀ (o : Nat) (h : Handle), n.objects[o]? = some h → 0 < h.pins →
    h.Mapped n.smmu ∧ o ∉ n.unmapQueue.map Prod.snd
  queued : ∀ o ∈ n.unmapQueue.map Prod.snd, ∃ h, n.objects[o]? = some h ∧ h.pins = 0 ∧ h.Mapped n.smmu
  nodup : (n.unmapQueue.map Prod.snd).Nodup

/-- A pin of a live allocated handle returns, and its answer is mapped. -/
def PinsAnswered (c : Container) (n : NvMap) (P : NvMap.Call → Prop) : Prop :=
  ∀ id lowAreaPin answers lowAnswer o h, P (.pinHandle id lowAreaPin answers lowAnswer) →
    n.getHandle id = some (o, h) → h.allocated = true →
    ∃ d n', n.pinHandle c id lowAreaPin answers lowAnswer = some (d, n') ∧ PinAnswer lowAreaPin o d n'

/-- A run of the calls whose states and calls meet a condition. -/
abbrev CallRun (c : Container) (P : NvMap → NvMap.Call → Prop) : NvMap → List NvMap.Call → NvMap → Prop :=
  PartialRun (NvMap.call c) (fun n' => n') fun n call _ => P n call

theorem call_inv (i : Inv c n) {call : NvMap.Call} (hg : Granted n call) (hb : Balanced c n call)
    (heq : n.call c call = some n') : Inv c n' := by
  cases call with
  | createHandle size =>
    cases heq
    exact createHandle_inv i size
  | alloc id pFlags pAlign pKind pAddress pSessionId =>
    cases heq
    exact alloc_inv i hb
  | duplicateHandle id internalSession =>
    cases heq
    exact duplicateHandle_inv i internalSession
  | pinHandle id lowAreaPin answers lowAnswer =>
    obtain ⟨⟨d, n1⟩, hpin, rfl⟩ := map_eq_some_iff.mp heq
    exact (pinHandle_inv i hg hb hpin).1
  | unpinHandle id =>
    cases heq
    exact unpinHandle_inv i hb
  | freeHandle id internalSession =>
    obtain ⟨r, n1, hfree, i'⟩ := @freeHandle_inv _ _ id i internalSession
    simp only [NvMap.call, hfree, map_some, Option.some.injEq] at heq
    rwa [← heq]

theorem Inv.pinsMapped (i : Inv c n) : PinsMapped n := by
  refine ⟨fun o h ho hpos => ?_, fun o hmem => ?_, i.queued.handles_nodup⟩
  · have hok := i.ok o h ho
    refine ⟨i.mapped ho (hok.address_iff.mpr (.inl hpos)), fun hmem => ?_⟩
    obtain ⟨⟨e, p⟩, hq, rfl⟩ := mem_map.mp hmem
    obtain ⟨g, hg, he⟩ := (i.queued.mem_iff e p).mp hq
    rw [ho] at hg
    cases hg
    have hzero := hok.pins_of_entry (by rw [he]; exact some_ne_none e)
    omega
  · obtain ⟨⟨e, p⟩, hq, rfl⟩ := mem_map.mp hmem
    obtain ⟨h, ho, he⟩ := (i.queued.mem_iff e p).mp hq
    have hok := i.ok p h ho
    have hne : h.unmapQueueEntry ≠ none := by
      rw [he]
      exact some_ne_none e
    exact ⟨h, ho, hok.pins_of_entry hne, i.mapped ho (hok.address_iff.mpr (.inr hne))⟩

/-- **Pins keep memory mapped** in every run whose calls are balanced: in each state a pinned handle
is mapped and not in the queue, a handle in the queue is mapped and not pinned, none is there
twice, and a balanced pin of a live allocated handle answers with a mapped address. -/
theorem pins_keep_memory_mapped {calls : List NvMap.Call} (hs : NvMap.IsStart c n)
    (hrun : CallRun c (fun n call => Granted n call ∧ Balanced c n call) n calls n') :
    PinsMapped n' ∧ PinsAnswered c n' fun call => Granted n' call ∧ Balanced c n' call := by
  have i : Inv c n' := hrun.invariant (Inv c)
    (fun _ _ _ i heq hP => call_inv i hP.1 hP.2 heq) (Inv.start hs)
  refine ⟨i.pinsMapped, fun id lowAreaPin answers lowAnswer o h hP hget _ => ?_⟩
  obtain ⟨d, n'', heq⟩ := pinHandle_returns i hP.2
  exact ⟨d, n'', heq, (pinHandle_inv i hP.1 hP.2 heq).2 o h hget⟩

/-! ## 6. Where the promise fails -/

/-- The promise for every run. -/
def PinsKeepMemoryMapped : Prop :=
  ∀ (c : Container) (n : NvMap) (calls : List NvMap.Call) (n' : NvMap), NvMap.IsStart c n →
    CallRun c Granted n calls n' → PinsMapped n' ∧ PinsAnswered c n' (Granted n')

/-- No session has a preallocated area. -/
def plainContainer : Container where
  mapper := fun _ => none
  apart := fun _ _ _ _ _ h => nomatch h

/-- A host where nothing is held. -/
def freshNvMap : NvMap where
  objects := []
  handles := fun _ => none
  unmapQueue := []
  nextNode := 0
  nextHandleId := handleIdIncrement
  smmu := ⟨fun _ => false, fun _ => none⟩
  lowArea := ⟨fun _ => false, fun _ => none⟩
  heapRanges := fun _ _ => 0

theorem freshNvMap_isStart : NvMap.IsStart plainContainer freshNvMap where
  objects := rfl
  handles _ := rfl
  unmapQueue := rfl
  held _ _ _ h := nomatch h
  heapRanges _ _ := rfl

/-- A handle is created, allocated and pinned. -/
def pinCalls : List NvMap.Call :=
  [.createHandle 0x1000, .alloc 4 0 0x1000 0 0x10000 0, .pinHandle 4 false [0x10000] 0]

theorem pins_keep_memory_mapped_pinned : ∃ n',
    CallRun plainContainer (fun n call => Granted n call ∧ Balanced plainContainer n call)
      freshNvMap pinCalls n' ∧
    PinsMapped n' ∧
      PinsAnswered plainContainer n' fun call => Granted n' call ∧ Balanced plainContainer n' call := by
  obtain ⟨n', hrun⟩ : ∃ n', CallRun plainContainer
      (fun n call => Granted n call ∧ Balanced plainContainer n call) freshNvMap pinCalls n' := by
    refine ⟨_, .cons rfl ⟨trivial, trivial⟩ (.cons rfl ⟨trivial, ?_⟩ (.cons rfl ⟨?_, ?_⟩ (.nil _)))⟩
    · rintro o h ⟨⟩
      exact .inr (.inl rfl)
    · rintro o h ⟨⟩
      exact ⟨fun _ _ _ _ _ _ => rfl, fun _ _ _ _ => rfl⟩
    · rintro o h ⟨⟩
      refine ⟨fun _ => ⟨fun harea => absurd rfl harea, fun _ => ⟨by decide, ?_⟩⟩, fun hne => nomatch hne⟩
      exact ⟨⟨0x10000, mem_cons_self, by decide⟩, fun hne => nomatch hne⟩
  exact ⟨_, hrun, pins_keep_memory_mapped freshNvMap_isStart hrun⟩

/-- As many pins as unpins: a device holds a reference of its own, and the application frees the
handle between the two. -/
def forcedUnmapCalls : List NvMap.Call :=
  [.createHandle 0x1000, .alloc 4 0 0x1000 0 0x10000 0, .duplicateHandle 4 true,
    .pinHandle 4 false [0x10000] 0, .freeHandle 4 false, .unpinHandle 4]

/-- The free sets the pins to 0 and the unpin to -1. The handle lives, and the next pin takes it for
pinned and answers 0. -/
theorem not_pinsKeepMemoryMapped : ¬ PinsKeepMemoryMapped := by
  intro hclaim
  obtain ⟨n', hrun, hget⟩ : ∃ n', CallRun plainContainer Granted freshNvMap forcedUnmapCalls n' ∧
      (∀ r < 0x10000, n'.smmu.held (0x10000 + r) = false) ∧
      (∃ h, n'.getHandle 4 = some (0, h) ∧ h.allocated = true ∧ h.deviceSize = 0x10000) ∧
      ∃ n'', n'.pinHandle plainContainer 4 false [0x10000] 0 = some (0, n'') := by
    refine ⟨_, .cons rfl trivial (.cons rfl trivial (.cons rfl trivial (.cons rfl ?_
      (.cons rfl trivial (.cons rfl trivial (.nil _)))))), ?_, ⟨_, rfl, rfl, by decide⟩, _, rfl⟩
    · rintro o h ⟨⟩
      exact ⟨fun _ _ _ _ _ _ => rfl, fun _ _ _ _ => rfl⟩
    · intro r hr
      have hin : 0x10000 ≤ 0x10000 + r ∧ 0x10000 + r < 0x10000 + 0x10000 := by omega
      exact if_pos hin
  obtain ⟨hfree, ⟨h, hlive, hallocated, hsize⟩, n'', heq⟩ := hget
  have hgranted : Granted n' (.pinHandle 4 false [0x10000] 0) := by
    intro o h' hget'
    rw [hlive] at hget'
    cases hget'
    refine ⟨fun a ha _ r hle hlt => ?_, fun hne => absurd rfl hne⟩
    rw [mem_singleton.mp ha] at hle hlt
    have hheld := hfree (r - 0x10000) (by omega)
    rwa [Nat.add_sub_cancel' hle] at hheld
  obtain ⟨d, n₁, hpin, hne, -⟩ := (hclaim _ _ _ _ freshNvMap_isStart hrun).2 4 false [0x10000] 0 0 h
    hgranted hlive hallocated
  rw [heq] at hpin
  cases hpin
  exact hne rfl

end Yuzu.Service.NvCore
