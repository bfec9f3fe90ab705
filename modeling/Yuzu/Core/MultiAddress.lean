/-
  File:      Yuzu/Core/MultiAddress.lean
  Subject:   MultiAddressContainer (core/device_memory_manager.inc): the device pages of a physical
             page that has several, as chains of entries that are recycled.

  The entries have ids from 1 on; 0 ends a chain. The deque of entries is its size and the entry
  of each id. Every loop follows one chain, and no chain is longer than there are entries.
-/
import Mathlib.Order.Interval.Finset.Nat
import Yuzu.Lib.Linked

namespace Yuzu.Core

open List Option Function Finset

/-- `static_cast<u32>`. -/
def u32 (n : Nat) : Nat := n % 2 ^ 32

/-! ## 1. The container -/

structure Entry where
  nextEntry : Nat := 0
  value : Nat := 0
  deriving DecidableEq, Repr

structure MultiAddressContainer where
  size : Nat := 0
  storage : Nat → Entry := fun _ => {}
  freeEntries : List Nat := []

namespace MultiAddressContainer

/-- `GatherValues`: the values of a chain. -/
def gatherLoop (storage : Nat → Entry) : Nat → Nat → List Nat
  | 0, iter => [(storage iter).value]
  | fuel + 1, iter =>
    (storage iter).value ::
      if (storage iter).nextEntry ≠ 0 then gatherLoop storage fuel (storage iter).nextEntry
      else []

def gatherValues (c : MultiAddressContainer) (startEntry : Nat) : List Nat :=
  gatherLoop c.storage c.size startEntry

/-- `GetNewEntry`. -/
def getNewEntry (c : MultiAddressContainer) : Nat × MultiAddressContainer :=
  match c.freeEntries with
  | result :: rest => (result, { c with freeEntries := rest })
  | [] => (u32 (c.size + 1),
      { c with size := c.size + 1, storage := Function.update c.storage (c.size + 1) {} })

/-- `RegisterImplementation`, which `Register` of a first value is. -/
def registerImplementation (c : MultiAddressContainer) (value : Nat) : Nat × MultiAddressContainer :=
  let (entryId, c) := c.getNewEntry
  (entryId, { c with storage := Function.update c.storage entryId ⟨0, value⟩ })

/-- The loop of `Register` to the end of the chain. -/
def lastLoop (storage : Nat → Entry) : Nat → Nat → Nat
  | 0, iter => iter
  | fuel + 1, iter =>
    if (storage iter).nextEntry ≠ 0 then lastLoop storage fuel (storage iter).nextEntry else iter

/-- `Register` at the end of a chain. -/
def register (c : MultiAddressContainer) (value startEntry : Nat) : MultiAddressContainer :=
  let (entryId, c) := c.registerImplementation value
  let last := lastLoop c.storage c.size startEntry
  { c with storage := Function.update c.storage last { c.storage last with nextEntry := entryId } }

/-- The loop of `Unregister`: the entry before the one with the value, that entry, and how many
    were passed. -/
def findLoop (storage : Nat → Entry) (value : Nat) : Nat → Option Nat → Nat → Nat → Option Nat × Nat × Nat
  | 0, previous, iter, count => (previous, iter, count)
  | fuel + 1, previous, iter, count =>
    if (storage iter).value ≠ value then
      findLoop storage value fuel (some iter) (storage iter).nextEntry (count + 1)
    else (previous, iter, count)

/-- `Unregister`: whether more than one entry remains, and the first of those that do. -/
def unregister (c : MultiAddressContainer) (value startEntry : Nat) :
    (Bool × Nat) × MultiAddressContainer :=
  let (previous, iter, count) := findLoop c.storage value c.size none startEntry 0
  let nextEntry := (c.storage iter).nextEntry
  let moreThanOneRemaining :=
    nextEntry ≠ 0 && ((c.storage nextEntry).nextEntry ≠ 0 || previous.isSome)
  let c' := { c with freeEntries := c.freeEntries ++ [iter] }
  match previous with
  | some p =>
    ((moreThanOneRemaining || decide (count > 1), startEntry),
      { c' with storage := Function.update c.storage p { c.storage p with nextEntry := nextEntry } })
  | none => ((moreThanOneRemaining || decide (count > 1), nextEntry), c')

/-- `ReleaseEntry`. -/
def releaseEntry (c : MultiAddressContainer) (startEntry : Nat) : Nat × MultiAddressContainer :=
  ((c.storage startEntry).value, { c with freeEntries := c.freeEntries ++ [startEntry] })

/-! ## 2. The loops on a chain -/

/-- The entry after an entry. -/
def link (storage : Nat → Entry) (id : Nat) : Option Nat :=
  if (storage id).nextEntry = 0 then none else some (storage id).nextEntry

variable {storage : Nat → Entry} {id start v fuel count : Nat} {L A B : List Nat} {previous : Option Nat}

theorem link_none (h : link storage id = none) : (storage id).nextEntry = 0 := by
  unfold link at h
  split at h
  · assumption
  · cases h

theorem link_some {j : Nat} (h : link storage id = some j) :
    (storage id).nextEntry = j ∧ (storage id).nextEntry ≠ 0 := by
  unfold link at h
  split at h
  · cases h
  · next hne =>
    cases h
    exact ⟨rfl, hne⟩

/-- **Gathering a chain** gives the values of its entries, in order. -/
theorem gatherLoop_eq (h : Linked (link storage) (some start) L) (hfuel : L.length ≤ fuel + 1) :
    gatherLoop storage fuel start = L.map fun i => (storage i).value := by
  induction fuel generalizing start L with
  | zero =>
    obtain ⟨L', rfl, hL'⟩ := h.pop
    have hnil : L' = [] := length_eq_zero_iff.mp (by simpa using hfuel)
    subst hnil
    rfl
  | succ fuel ih =>
    obtain ⟨L', rfl, hL'⟩ := h.pop
    rw [gatherLoop, List.map_cons]
    cases hnext : link storage start with
    | none =>
      rw [hnext] at hL'
      rw [if_neg (not_not.mpr (link_none hnext)), hL'.eq_nil_iff.mpr rfl, map_nil]
    | some j =>
      rw [hnext] at hL'
      obtain ⟨rfl, hne⟩ := link_some hnext
      rw [if_pos hne, ih hL' (by simpa using hfuel)]

theorem lastLoop_eq (h : Linked (link storage) (some start) (L ++ [id]))
    (hfuel : L.length ≤ fuel) : lastLoop storage fuel start = id := by
  induction fuel generalizing start L with
  | zero =>
    have hnil : L = [] := length_eq_zero_iff.mp (by omega)
    subst hnil
    obtain ⟨hs, -⟩ := h
    exact some.inj hs
  | succ fuel ih =>
    rw [lastLoop]
    cases L with
    | nil =>
      obtain ⟨hs, hend⟩ := h
      rw [some.inj hs, if_neg (not_not.mpr (link_none hend))]
    | cons i L =>
      obtain ⟨hs, hL⟩ := h
      cases hs
      cases hnext : link storage start with
      | none =>
        rw [hnext] at hL
        exact absurd (hL.eq_nil_iff.mpr rfl) (by simp)
      | some j =>
        rw [hnext] at hL
        obtain ⟨rfl, hne⟩ := link_some hnext
        rw [if_pos hne]
        exact ih hL (by simpa using hfuel)

/-- The search for a value stops at its entry. -/
theorem findLoop_eq (h : Linked (link storage) (some start) (A ++ id :: B))
    (hA : ∀ a ∈ A, (storage a).value ≠ v) (hid : (storage id).value = v)
    (hfuel : A.length < fuel) :
    findLoop storage v fuel previous start count = (A.getLast?.or previous, id, count + A.length) := by
  induction fuel generalizing start A previous count with
  | zero => exact absurd hfuel (Nat.not_lt_zero _)
  | succ fuel ih =>
    rw [findLoop]
    cases A with
    | nil =>
      obtain ⟨hs, -⟩ := h
      cases hs
      rw [if_neg (not_not.mpr hid)]
      rfl
    | cons a A =>
      obtain ⟨hs, hL⟩ := h
      cases hs
      rw [if_pos (hA start mem_cons_self)]
      cases hnext : link storage start with
      | none =>
        rw [hnext] at hL
        exact absurd (hL.eq_nil_iff.mpr rfl) (by simp)
      | some j =>
        rw [hnext] at hL
        obtain ⟨rfl, -⟩ := link_some hnext
        rw [ih hL (fun a ha => hA a (mem_cons_of_mem _ ha)) (by simpa using hfuel)]
        refine Prod.ext ?_ (Prod.ext rfl ?_)
        · cases hlast : A.getLast? with
          | none =>
            rw [List.getLast?_eq_none_iff.mp hlast]
            rfl
          | some z =>
            rw [List.getLast?_cons, hlast]
            rfl
        · simp only [length_cons]
          omega

/-! ## 3. Chains -/

/-- **The chains of a container**: each owner has its own entries, linked in order; the entries
    that no owner has are free. -/
structure Chains (c : MultiAddressContainer) (ids : Nat → List Nat) : Prop where
  linked : ∀ o, Linked (link c.storage) (ids o).head? (ids o)
  nodup : ∀ o, (ids o).Nodup
  disjoint : ∀ o o' id, id ∈ ids o → id ∈ ids o' → o = o'
  valid : ∀ o, ∀ i ∈ ids o, 0 < i ∧ i ≤ c.size
  freeNodup : c.freeEntries.Nodup
  freeValid : ∀ id ∈ c.freeEntries, 0 < id ∧ id ≤ c.size
  freeUnused : ∀ id ∈ c.freeEntries, ∀ o, id ∉ ids o
  cover : ∀ id, 0 < id → id ≤ c.size → id ∈ c.freeEntries ∨ ∃ o, id ∈ ids o

variable {c c' : MultiAddressContainer} {ids : Nat → List Nat} {o n e : Nat}

theorem Chains.empty : Chains {} fun _ => [] where
  linked _ := rfl
  nodup _ := nodup_nil
  disjoint _ _ _ h := nomatch h
  valid _ _ h := nomatch h
  freeNodup := nodup_nil
  freeValid _ h := nomatch h
  freeUnused _ h := nomatch h
  cover _ h0 hs := absurd h0 (Nat.not_lt.mpr hs)

theorem Chains.length_le (h : Chains c ids) : (ids o).length ≤ c.size := by
  have hsub : (ids o).toFinset ⊆ Finset.Icc 1 c.size := by
    intro id hid
    obtain ⟨h0, hs⟩ := h.valid o id (mem_toFinset.mp hid)
    exact mem_Icc.mpr ⟨h0, hs⟩
  have hcard := card_le_card hsub
  rwa [toFinset_card_of_nodup (h.nodup o), Nat.card_Icc, Nat.add_sub_cancel] at hcard

/-- **The ids stay small**: where no entry is free, the values of the entries are different and
    below `n`, and one more is wanted, there are fewer entries than `n` allows. -/
theorem Chains.size_lt (h : Chains c ids) (hfree : c.freeEntries = [])
    (hinj : ∀ o o' id id', id ∈ ids o → id' ∈ ids o' →
      (c.storage id).value = (c.storage id').value → id = id')
    (hrange : ∀ o, ∀ id ∈ ids o, 0 < (c.storage id).value ∧ (c.storage id).value < n)
    (hv : 0 < v ∧ v < n) (hnew : ∀ o, ∀ id ∈ ids o, (c.storage id).value ≠ v) :
    c.size + 1 < n := by
  have howner : ∀ id ∈ Finset.Icc 1 c.size, ∃ o, id ∈ ids o := by
    intro id hid
    obtain ⟨h0, hs⟩ := mem_Icc.mp hid
    rcases h.cover id h0 hs with hf | ho
    · rw [hfree] at hf
      cases hf
    · exact ho
  have hcard : (Finset.Icc 1 c.size).card ≤ ((Finset.Ioo 0 n).erase v).card := by
    refine card_le_card_of_injOn (fun id => (c.storage id).value) (fun i hi => ?_)
      fun i hi j hj heq => ?_
    · obtain ⟨o, ho⟩ := howner i hi
      exact mem_coe.mpr (mem_erase.mpr ⟨hnew o i ho, mem_Ioo.mpr (hrange o i ho)⟩)
    · obtain ⟨o, ho⟩ := howner i hi
      obtain ⟨o', ho'⟩ := howner j hj
      exact hinj o o' i j ho ho' heq
  rw [card_erase_of_mem (mem_Ioo.mpr hv), Nat.card_Icc, Nat.card_Ioo] at hcard
  omega

theorem Linked_congr {storage' : Nat → Entry} {p : Option Nat}
    (h : Linked (link storage) p L) (hsame : ∀ id ∈ L, storage' id = storage id) :
    Linked (link storage') p L :=
  h.congr fun id hid => by rw [link, link, hsame id hid]

/-! ## 4. New entries -/

/-- A new entry: it is in no chain and not free, and nothing else changed. -/
structure NewEntry (c : MultiAddressContainer) (ids : Nat → List Nat) (e : Nat)
    (c' : MultiAddressContainer) : Prop where
  valid : 0 < e ∧ e ≤ c'.size
  unused : ∀ o, e ∉ ids o
  notFree : e ∉ c'.freeEntries
  freeNodup : c'.freeEntries.Nodup
  free : ∀ id ∈ c'.freeEntries, id ∈ c.freeEntries
  size : c'.size = c.size ∨ (c.freeEntries = [] ∧ c'.size = c.size + 1)
  same : ∀ id, id ≠ e → c'.storage id = c.storage id
  cover : ∀ id, 0 < id → id ≤ c'.size → id = e ∨ id ∈ c'.freeEntries ∨ ∃ o, id ∈ ids o

theorem NewEntry.size_le (h : NewEntry c ids e c') : c.size ≤ c'.size := by
  rcases h.size with h | ⟨-, h⟩ <;> omega

theorem Chains.getNewEntry (h : Chains c ids) (hsize : c.freeEntries = [] → c.size + 1 < 2 ^ 32) :
    NewEntry c ids c.getNewEntry.1 c.getNewEntry.2 := by
  cases hfree : c.freeEntries with
  | nil =>
    have hnew : c.getNewEntry = (c.size + 1, { c with
        size := c.size + 1, storage := Function.update c.storage (c.size + 1) {} }) := by
      simp only [MultiAddressContainer.getNewEntry, hfree, u32, Nat.mod_eq_of_lt (hsize hfree)]
    rw [hnew]
    refine ⟨⟨Nat.succ_pos _, le_rfl⟩, fun o ho => ?_, ?_, h.freeNodup, fun id hid => hid,
      .inr ⟨hfree, rfl⟩, fun id hid => update_of_ne hid _ _, fun id h0 hs => ?_⟩
    · exact absurd (h.valid o _ ho).2 (Nat.not_le.mpr (Nat.lt_succ_self _))
    · simp [hfree]
    · rcases Nat.lt_or_ge c.size id with hlt | hge
      · exact .inl (le_antisymm hs hlt)
      · exact .inr (h.cover id h0 hge)
  | cons e rest =>
    have hnew : c.getNewEntry = (e, { c with freeEntries := rest }) := by
      simp only [MultiAddressContainer.getNewEntry, hfree]
    have hmem : e ∈ c.freeEntries := hfree ▸ mem_cons_self
    have hnodup := h.freeNodup
    rw [hfree, nodup_cons] at hnodup
    rw [hnew]
    refine ⟨h.freeValid e hmem, h.freeUnused e hmem, hnodup.1, hnodup.2,
      fun id hid => hfree ▸ mem_cons_of_mem _ hid, .inl rfl, fun id hid => rfl,
      fun id h0 hs => ?_⟩
    rcases h.cover id h0 hs with hf | ho
    · rw [hfree] at hf
      rcases mem_cons.mp hf with rfl | hf
      · exact .inl rfl
      · exact .inr (.inl hf)
    · exact .inr (.inr ho)

theorem Chains.registerImplementation (h : Chains c ids)
    (hsize : c.freeEntries = [] → c.size + 1 < 2 ^ 32) :
    NewEntry c ids (c.registerImplementation v).1 (c.registerImplementation v).2 ∧
      (c.registerImplementation v).2.storage (c.registerImplementation v).1 = ⟨0, v⟩ := by
  have hnew := h.getNewEntry hsize
  refine ⟨⟨hnew.valid, hnew.unused, hnew.notFree, hnew.freeNodup, hnew.free, hnew.size,
    fun id hid => ?_, hnew.cover⟩, update_self _ _ _⟩
  rw [← hnew.same id hid]
  exact update_of_ne hid _ _

theorem mem_extend {ids : Nat → List Nat} {o' : Nat} :
    id ∈ Function.update ids o (ids o ++ [e]) o' ↔ id ∈ ids o' ∨ (o' = o ∧ id = e) := by
  by_cases ho : o' = o
  · subst ho
    simp
  · simp [ho]

/-- **An owner gets a new entry**, at the end of its chain. -/
theorem Chains.extend (h : Chains c ids) (hnew : NewEntry c ids e c') {storage : Nat → Entry}
    (hlink : Linked (link storage) (ids o ++ [e]).head? (ids o ++ [e]))
    (hother : ∀ o', o' ≠ o → ∀ id ∈ ids o', storage id = c.storage id) :
    Chains { c' with storage := storage } (Function.update ids o (ids o ++ [e])) := by
  refine ⟨fun o' => ?_, fun o' => ?_, fun o1 o2 id h1 h2 => ?_, fun o' id hid => ?_,
    hnew.freeNodup, fun id hid => ?_, fun id hid o' hid' => ?_, fun id h0 hs => ?_⟩
  · by_cases ho : o' = o
    · subst ho
      rw [update_self]
      exact hlink
    · rw [update_of_ne ho]
      exact Linked_congr (h.linked o') (hother o' ho)
  · by_cases ho : o' = o
    · subst ho
      rw [update_self]
      exact nodup_append.mpr ⟨h.nodup o', nodup_singleton e, fun a ha b hb heq =>
        hnew.unused o' (List.mem_singleton.mp hb ▸ heq ▸ ha)⟩
    · rw [update_of_ne ho]
      exact h.nodup o'
  · rcases mem_extend.mp h1 with hid1 | ⟨rfl, rfl⟩ <;> rcases mem_extend.mp h2 with hid2 | ⟨rfl, heq⟩
    · exact h.disjoint o1 o2 id hid1 hid2
    · exact absurd (heq ▸ hid1) (hnew.unused o1)
    · exact absurd hid2 (hnew.unused o2)
    · rfl
  · rcases mem_extend.mp hid with hid | ⟨-, rfl⟩
    · exact ⟨(h.valid o' id hid).1, (h.valid o' id hid).2.trans hnew.size_le⟩
    · exact hnew.valid
  · obtain ⟨h0, hs⟩ := h.freeValid id (hnew.free id hid)
    exact ⟨h0, hs.trans hnew.size_le⟩
  · rcases mem_extend.mp hid' with hid' | ⟨-, rfl⟩
    · exact h.freeUnused id (hnew.free id hid) o' hid'
    · exact hnew.notFree hid
  · rcases hnew.cover id h0 hs with rfl | hf | ⟨o', ho'⟩
    · exact .inr ⟨o, mem_extend.mpr (.inr ⟨rfl, rfl⟩)⟩
    · exact .inl hf
    · exact .inr ⟨o', mem_extend.mpr (.inl ho')⟩

/-- **`Register` of a first value**: a chain of one entry. -/
theorem Chains.registerNew (h : Chains c ids) (hempty : ids o = [])
    (hsize : c.freeEntries = [] → c.size + 1 < 2 ^ 32) :
    Chains (c.registerImplementation v).2 (Function.update ids o [(c.registerImplementation v).1]) := by
  obtain ⟨hnew, hvalue⟩ := h.registerImplementation (v := v) hsize
  have hext := @MultiAddressContainer.Chains.extend _ _ _ o _ h hnew
      (c.registerImplementation v).2.storage (by
      rw [hempty]
      refine ⟨rfl, ?_⟩
      rw [link, hvalue]
      rfl)
    fun o' _ id hid => hnew.same id fun heq => hnew.unused o' (heq ▸ hid)
  rwa [hempty] at hext

theorem register_eq (h : Chains c ids) (hchain : ids o = L ++ [id])
    (hstart : (ids o).head? = some start) (hnew : NewEntry c ids (c.registerImplementation v).1
      (c.registerImplementation v).2) :
    c.register v start = { (c.registerImplementation v).2 with
      storage := Function.update (c.registerImplementation v).2.storage id
        { c.storage id with nextEntry := (c.registerImplementation v).1 } } := by
  have hsame : ∀ i ∈ ids o, (c.registerImplementation v).2.storage i = c.storage i :=
    fun i hi => hnew.same i fun heq => hnew.unused o (heq ▸ hi)
  have hlinked := Linked_congr (h.linked o) hsame
  rw [hstart, hchain] at hlinked
  have hlen := h.length_le (o := o)
  rw [hchain, List.length_append, List.length_singleton] at hlen
  have hlast := @MultiAddressContainer.lastLoop_eq _ _ _ (c.registerImplementation v).2.size _
      hlinked (by have := hnew.size_le; omega)
  unfold MultiAddressContainer.register
  dsimp only
  rw [hlast, hsame id (hchain ▸ List.mem_append_right _ (List.mem_singleton_self id))]

theorem NewEntry.last (hnew : NewEntry c ids (c.registerImplementation v).1 (c.registerImplementation v).2)
    (hstart : (ids o).head? = some start) :
    ∃ L z, ids o = L ++ [z] ∧ z ∈ ids o ∧ (c.registerImplementation v).1 ≠ z := by
  have hne : ids o ≠ [] := by
    rintro heq
    rw [heq] at hstart
    cases hstart
  obtain ⟨L, z, hchain⟩ := eq_nil_or_concat (ids o) |>.resolve_left hne
  rw [concat_eq_append] at hchain
  have hmem : z ∈ ids o := hchain ▸ List.mem_append_right _ (List.mem_singleton_self z)
  exact ⟨L, z, hchain, hmem, fun heq => hnew.unused o (heq ▸ hmem)⟩

/-- **`Register` at the end of a chain.** -/
theorem Chains.registerEnd (h : Chains c ids) (hstart : (ids o).head? = some start)
    (hsize : c.freeEntries = [] → c.size + 1 < 2 ^ 32) :
    Chains (c.register v start) (Function.update ids o (ids o ++ [(c.registerImplementation v).1])) := by
  obtain ⟨hnew, hvalue⟩ := h.registerImplementation (v := v) hsize
  obtain ⟨L, z, hchain, hmem, hze⟩ := hnew.last hstart
  rw [register_eq h hchain hstart hnew]
  refine h.extend hnew ?_ fun o' ho' id hid => ?_
  · have hlinked := Linked_congr (h.linked o)
      fun i hi => hnew.same i fun heq => hnew.unused o (heq ▸ hi)
    have hnodup := h.nodup o
    have hunused := hnew.unused o
    rw [hchain] at hlinked hnodup hunused ⊢
    have hhead : (L ++ [z] ++ [(c.registerImplementation v).1]).head? = (L ++ [z]).head? := by
      cases L <;> rfl
    rw [hhead, append_assoc, singleton_append]
    refine Linked.append_last hnodup hunused ?_ ?_ (fun j hjz _ => ?_) hlinked
    · rw [link, update_self]
      exact if_neg (Nat.pos_iff_ne_zero.mp hnew.valid.1)
    · rw [link, update_of_ne hze, hvalue]
      rfl
    · rw [link, link, update_of_ne hjz]
  · have hidz : id ≠ z := fun heq => ho' (h.disjoint o' o id hid (heq ▸ hmem))
    rw [update_of_ne hidz]
    exact hnew.same id fun heq => hnew.unused o' (heq ▸ hid)

theorem Chains.register_value (h : Chains c ids) (hstart : (ids o).head? = some start)
    (hsize : c.freeEntries = [] → c.size + 1 < 2 ^ 32) :
    ((c.register v start).storage (c.registerImplementation v).1).value = v ∧
      (∀ i, i ≠ (c.registerImplementation v).1 →
        ((c.register v start).storage i).value = (c.storage i).value) ∧
      (c.register v start).size = (c.registerImplementation v).2.size := by
  obtain ⟨hnew, hvalue⟩ := h.registerImplementation (v := v) hsize
  obtain ⟨L, z, hchain, hmem, hze⟩ := hnew.last hstart
  rw [register_eq h hchain hstart hnew]
  refine ⟨?_, fun i hi => ?_, rfl⟩
  · dsimp only
    rw [update_of_ne hze, hvalue]
  · dsimp only
    by_cases hiz : i = z
    · rw [hiz, update_self]
    · rw [update_of_ne hiz, hnew.same i hi]

/-! ## 5. Entries that are given back -/

/-- **An owner gives an entry back.** -/
theorem Chains.drop (h : Chains c ids) (hchain : ids o = A ++ id :: B) {storage : Nat → Entry}
    (hlink : Linked (link storage) (A ++ B).head? (A ++ B))
    (hother : ∀ o', o' ≠ o → ∀ i ∈ ids o', storage i = c.storage i) :
    Chains { c with storage := storage, freeEntries := c.freeEntries ++ [id] }
      (Function.update ids o (A ++ B)) := by
  have hmem : id ∈ ids o := by simp [hchain]
  have hnodup := h.nodup o
  rw [hchain] at hnodup
  have hsub : ∀ {o' i}, i ∈ Function.update ids o (A ++ B) o' → i ∈ ids o' ∧ i ≠ id := by
    intro o' i hi
    by_cases ho : o' = o
    · subst ho
      rw [update_self] at hi
      refine ⟨?_, ?_⟩
      · rw [hchain]
        rcases mem_append.mp hi with hA | hB
        · exact mem_append_left _ hA
        · exact mem_append_right _ (mem_cons_of_mem _ hB)
      · rintro rfl
        exact (nodup_middle.mp hnodup |> nodup_cons.mp).1 hi
    · rw [update_of_ne ho] at hi
      exact ⟨hi, fun heq => ho (h.disjoint o' o i hi (heq ▸ hmem))⟩
  refine ⟨fun o' => ?_, fun o' => ?_, fun o1 o2 i h1 h2 => ?_, fun o' i hi => ?_, ?_,
    fun i hi => ?_, fun i hi o' hi' => ?_, fun i h0 hs => ?_⟩
  · by_cases ho : o' = o
    · subst ho
      rw [update_self]
      exact hlink
    · rw [update_of_ne ho]
      exact Linked_congr (h.linked o') (hother o' ho)
  · by_cases ho : o' = o
    · subst ho
      rw [update_self]
      exact (nodup_cons.mp (nodup_middle.mp hnodup)).2
    · rw [update_of_ne ho]
      exact h.nodup o'
  · exact h.disjoint o1 o2 i (hsub h1).1 (hsub h2).1
  · exact h.valid o' i (hsub hi).1
  · exact nodup_append.mpr ⟨h.freeNodup, nodup_singleton id, fun a ha b hb heq =>
      h.freeUnused a ha o (heq ▸ List.mem_singleton.mp hb ▸ hmem)⟩
  · rcases mem_append.mp hi with hf | heq
    · exact h.freeValid i hf
    · rw [List.mem_singleton.mp heq]
      exact h.valid o id hmem
  · rcases mem_append.mp hi with hf | heq
    · exact h.freeUnused i hf o' (hsub hi').1
    · exact (hsub hi').2 (List.mem_singleton.mp heq)
  · by_cases heq : i = id
    · exact .inl (List.mem_append_right _ (List.mem_singleton.mpr heq))
    rcases h.cover i h0 hs with hf | ⟨o', ho'⟩
    · exact .inl (mem_append_left _ hf)
    · refine .inr ⟨o', ?_⟩
      by_cases ho : o' = o
      · subst ho
        rw [update_self]
        rw [hchain] at ho'
        simpa [heq] using ho'
      · rwa [update_of_ne ho]

/-- **`ReleaseEntry`** of the only entry of a chain. -/
theorem Chains.releaseEntry (h : Chains c ids) (hchain : ids o = [start]) :
    Chains (c.releaseEntry start).2 (Function.update ids o []) :=
  h.drop (A := []) (B := []) hchain rfl fun _ _ _ _ => rfl

/-- **`Unregister`**: the entry of the value leaves its chain, and the answer tells whether two
    entries remain at least, and the first of those that do. -/
theorem Chains.unregister (h : Chains c ids) (hchain : ids o = A ++ id :: B)
    (hstart : (ids o).head? = some start) (hA : ∀ a ∈ A, (c.storage a).value ≠ v)
    (hid : (c.storage id).value = v) :
    (c.unregister v start).1.1 = decide (2 ≤ (A ++ B).length) ∧
      (A ++ B ≠ [] → (A ++ B).head? = some (c.unregister v start).1.2) ∧
      Chains (c.unregister v start).2 (Function.update ids o (A ++ B)) ∧
      (∀ i, ((c.unregister v start).2.storage i).value = (c.storage i).value) ∧
      (c.unregister v start).2.size = c.size := by
  have hlinked := h.linked o
  have hlen := h.length_le (o := o)
  have hnodup := h.nodup o
  rw [hstart] at hlinked
  rw [hchain] at hlinked hlen hnodup
  have hfind := @MultiAddressContainer.findLoop_eq _ _ _ _ c.size 0 _ _ none hlinked hA hid
      (by simp only [length_append, length_cons] at hlen; omega)
  rw [or_none, Nat.zero_add] at hfind
  -- the entry after it, and whether that one goes on
  have hrest := hlinked.drop
  have hB : (c.storage id).nextEntry ≠ 0 ↔ B ≠ [] := by
    rw [ne_eq, ne_eq, hrest.eq_nil_iff, link]
    split <;> simp_all
  have hB2 : B ≠ [] → ((c.storage (c.storage id).nextEntry).nextEntry ≠ 0 ↔ 2 ≤ B.length) := by
    intro hne
    obtain ⟨b, B', rfl⟩ := exists_cons_of_ne_nil hne
    obtain ⟨hb, hB'⟩ := hrest
    rw [(link_some hb).1]
    have hnil := hB'.eq_nil_iff
    rw [link] at hnil
    rw [ne_eq, length_cons]
    cases B' with
    | nil =>
      have h0 := hnil.mp rfl
      split at h0
      · next hz => simp [hz]
      · cases h0
    | cons b' B'' =>
      have h0 : ¬ _ := fun h' => absurd (hnil.mpr h') (by simp)
      split at h0
      · exact absurd rfl h0
      · next hz => simp [hz]
  unfold MultiAddressContainer.unregister
  rw [hfind]
  dsimp only
  rcases eq_nil_or_concat A with rfl | ⟨A', p, rfl⟩
  · -- the first entry of the chain
    refine ⟨?_, fun hne => ?_, ?_, fun i => rfl, rfl⟩
    · by_cases hne : B = []
      · have h0 : (c.storage id).nextEntry = 0 := by
          by_contra h0
          exact hB.mp h0 hne
        simp [h0, hne]
      · simp only [List.getLast?_nil, isSome_none, Bool.or_false, length_nil, nil_append]
        have h2 := hB2 hne
        have h1 := hB.mpr hne
        by_cases hlong : 2 ≤ B.length
        · simp [h1, h2.mpr hlong, hlong]
        · have h3 : (c.storage (c.storage id).nextEntry).nextEntry = 0 := by
            by_contra h3
            exact hlong (h2.mp h3)
          simp [h3, hlong]
    · rw [nil_append] at hne ⊢
      rw [hrest.head?_eq, link, if_neg (hB.mpr hne)]
      rfl
    · refine h.drop (A := []) hchain ?_ fun _ _ _ _ => rfl
      rw [nil_append, hrest.head?_eq]
      exact hrest
  · rw [concat_eq_append] at *
    rw [List.getLast?_append_of_ne_nil _ (cons_ne_nil p []), List.getLast?_singleton]
    dsimp only
    have hpid : p ≠ id := by
      rintro rfl
      exact (disjoint_of_nodup_append hnodup) (by simp) mem_cons_self
    refine ⟨?_, fun _ => ?_, ?_, fun i => ?_, rfl⟩
    · by_cases hne : B = []
      · have h0 : (c.storage id).nextEntry = 0 := by
          by_contra h0
          exact hB.mp h0 hne
        simp only [h0, hne, append_nil, length_append, length_singleton]
        simp
        omega
      · have h1 := hB.mpr hne
        have hpos : 0 < B.length := length_pos_iff.mpr hne
        simp only [length_append, length_singleton]
        simp [h1]
        omega
    · rw [← hstart, hchain]
      cases A' <;> rfl
    · refine h.drop hchain ?_ fun o' ho' i hi => ?_
      · rw [append_assoc, singleton_append] at hlinked hnodup ⊢
        have hhead : (A' ++ p :: B).head? = (A' ++ p :: id :: B).head? := by cases A' <;> rfl
        rw [hhead, hlinked.head?_eq]
        refine Linked.remove hnodup ?_ (fun j hjp _ => ?_) hlinked
        · rw [link, link, update_self]
        · rw [link, link, update_of_ne hjp]
      · refine update_of_ne ?_ _ _
        rintro rfl
        exact ho' (h.disjoint o' o i hi (by simp [hchain]))
    · by_cases hip : i = p
      · rw [hip, update_self]
      · rw [update_of_ne hip]

end MultiAddressContainer

end Yuzu.Core
