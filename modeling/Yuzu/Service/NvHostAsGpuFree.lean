/-
  File:      Yuzu/Service/NvHostAsGpuFree.lean
  Subject:   nvhost_as_gpu: when a live allocation can be freed.

  `FreeSpace` frees the mappings that the allocation lists. That works as long as the lists name
  live mappings, each once: `Listed`. `UnmapBuffer` and a second mapping at an offset break it.

  * `Steady` -- the condition of a call, successful or not;
  * `freeSpace_frees` -- what `FreeSpace` does after every run of such calls.
-/
import Yuzu.Service.NvHostAsGpuSteps

namespace Yuzu.Service

open Yuzu.Core (DeviceMemory)
open Yuzu.VideoCore (MemoryManager pageBits pageSize identityMemory)

namespace NvhostAsGpu

/-! ## 1. The condition of a call -/

/-- The range of an allocation. -/
def InRange (first : Nat) (a : Allocation) (v : Nat) : Prop := first ≤ v ∧ v < first + a.size

/-- The condition of `AllocateSpace`: its range overlaps no allocation, and starts at none. An entry
that a failed `FreeSpace` has left has no page size and does not count. -/
def SteadyAllocate (s : NvhostAsGpu) (params : IoctlAllocSpace) : Prop :=
  ∀ off al, s.placeSpace params (params.pageSize.toNat ≠ pageSize) = some (off, al) →
    ∀ first a, s.allocationMap.lookup first = some a → a.pageSize ≠ 0 →
      first ≠ off ∧ ∀ v, InRange first a v → ¬ InRange off (newAllocation params) v

/-- The condition of `MapBufferEx`. It maps a part again, or it is fixed; where an allocation admits
the fixed mapping, it lies inside and no mapping is at its offset. -/
def SteadyMap (s : NvhostAsGpu) (params : IoctlMapBufferEx) : Prop :=
  params.flags.remap = true ∨ (params.flags.fixed = true ∧
    ∀ handle first a, s.nvmap.handles params.handle = some handle →
      s.allocationBelow params.offset.toNat = some (first, a) →
      endInside first params.offset.toNat (mappedSize params handle) ≤ a.size →
      params.offset.toNat + mappedSize params handle ≤ first + a.size ∧
        s.mappingMap.lookup params.offset.toNat = none)

/-- The condition of a call: `UnmapBuffer` does not name a mapping. -/
def Steady (s : NvhostAsGpu) : Ioctl → Prop
  | .allocAsEx _ => True
  | .allocateSpace params => s.SteadyAllocate params
  | .freeSpace _ => True
  | .mapBufferEx params _ => s.SteadyMap params
  | .unmapBuffer offset => s.mappingMap.lookup offset.toNat = none
  | .remap _ => True

/-! ## 2. The invariant -/

/-- **The lists name the live mappings**, each once, and the allocations lie apart. -/
structure Listed (s : NvhostAsGpu) : Prop where
  homes : ∀ off m, s.mappingMap.lookup off = some m → m.fixed = true ∧ 0 < m.size ∧
    m.offset = off ∧ ∃ first a, s.allocationMap.lookup first = some a ∧ m ∈ a.mappings
  live : ∀ first a, s.allocationMap.lookup first = some a → ∀ x ∈ a.mappings,
    s.mappingMap.lookup x.offset = some x ∧ first ≤ x.offset ∧ x.offset + x.size ≤ first + a.size
  nodup : ∀ first a, s.allocationMap.lookup first = some a → (a.mappings.map Mapping.offset).Nodup
  apart : ∀ first a first' a', s.allocationMap.lookup first = some a →
    s.allocationMap.lookup first' = some a' → first ≠ first' →
    ∀ v, InRange first a v → ¬ InRange first' a' v
  empty : ∀ first a, s.allocationMap.lookup first = some a → a.pageSize = 0 → a.size = 0 ∧ a.mappings = []

variable {s s' : NvhostAsGpu} {d : DeviceMemory} {m : Mapping} {a : Allocation} {off first : Nat}
  {o : Outcome NvhostAsGpu} {placement : Placement}

theorem Listed.congr (h : s.Listed) (hmap : s'.mappingMap = s.mappingMap)
    (halloc : s'.allocationMap = s.allocationMap) : s'.Listed where
  homes := by rw [hmap, halloc]; exact h.homes
  live := by rw [hmap, halloc]; exact h.live
  nodup := by rw [halloc]; exact h.nodup
  apart := by rw [halloc]; exact h.apart
  empty := by rw [halloc]; exact h.empty

theorem Listed.inRange (h : s.Listed) (ha : s.allocationMap.lookup first = some a)
    {x : Mapping} (hx : x ∈ a.mappings) : InRange first a x.offset := by
  obtain ⟨hlive, hle, hend⟩ := h.live first a ha x hx
  have hpos := (h.homes _ _ hlive).2.1
  exact ⟨hle, by omega⟩

theorem Listed.mem_of_inside (h : s.Listed) (ha : s.allocationMap.lookup first = some a)
    (hm : s.mappingMap.lookup off = some m) (hin : InRange first a off) : m ∈ a.mappings := by
  obtain ⟨-, -, hoff, first', a', ha', hmem⟩ := h.homes off m hm
  have hrange := h.inRange ha' hmem
  rw [hoff] at hrange
  have hfirst : first = first' := by
    by_contra hne
    exact h.apart first a first' a' ha ha' hne off hin hrange
  subst hfirst
  obtain rfl := Option.some.inj (ha.symm.trans ha')
  exact hmem

/-! ## 3. Calls that keep the lists -/

/-- A new allocation, where the lists allow it. -/
theorem Listed.allocate (h : s.Listed) {new : Allocation} (hnew : new.mappings = [])
    (hsize : new.pageSize = 0 → new.size = 0)
    (hold : ∀ first a, s.allocationMap.lookup first = some a → a.pageSize ≠ 0 →
      first ≠ off ∧ ∀ v, InRange first a v → ¬ InRange off new v)
    (hmap : s'.mappingMap = s.mappingMap)
    (halloc : s'.allocationMap = s.allocationMap.insert off new) : s'.Listed := by
  -- what is overwritten is an entry that a failed `FreeSpace` has left
  have hempty : ∀ a, s.allocationMap.lookup off = some a → a.mappings = [] := fun a ha => by
    by_cases hpage : a.pageSize = 0
    · exact (h.empty off a ha hpage).2
    · exact absurd rfl (hold off a ha hpage).1
  have hlook : ∀ first a, s'.allocationMap.lookup first = some a →
      (first = off ∧ a = new) ∨ (first ≠ off ∧ s.allocationMap.lookup first = some a) := by
    intro first a ha
    rw [halloc] at ha
    by_cases hf : first = off
    · rw [hf, AList.lookup_insert] at ha
      exact .inl ⟨hf, (Option.some.inj ha).symm⟩
    · rw [AList.lookup_insert_ne hf] at ha
      exact .inr ⟨hf, ha⟩
  have hapart : ∀ first a, s.allocationMap.lookup first = some a → ∀ v,
      InRange first a v → ¬ InRange off new v := by
    intro first a ha v hin
    by_cases hpage : a.pageSize = 0
    · have hzero := (h.empty first a ha hpage).1
      obtain ⟨hle, hlt⟩ := hin
      omega
    · exact (hold first a ha hpage).2 v hin
  refine ⟨fun off' m hm => ?_, fun first a ha => ?_, fun first a ha => ?_,
    fun first a first' a' ha ha' hne v => ?_, fun first a ha hpage => ?_⟩
  · rw [hmap] at hm
    obtain ⟨hf, hpos, hoff, first, a, ha, hmem⟩ := h.homes off' m hm
    have hne : first ≠ off := by
      rintro rfl
      rw [hempty a ha] at hmem
      exact nomatch hmem
    exact ⟨hf, hpos, hoff, first, a, by rw [halloc, AList.lookup_insert_ne hne, ha], hmem⟩
  · rw [hmap]
    rcases hlook first a ha with ⟨-, rfl⟩ | ⟨-, ha⟩
    · rw [hnew]
      exact fun x hx => nomatch hx
    · exact h.live first a ha
  · rcases hlook first a ha with ⟨-, rfl⟩ | ⟨-, ha⟩
    · rw [hnew]
      exact List.nodup_nil
    · exact h.nodup first a ha
  · rcases hlook first a ha with ⟨rfl, rfl⟩ | ⟨-, ha⟩ <;>
      rcases hlook first' a' ha' with ⟨rfl, rfl⟩ | ⟨-, ha'⟩
    · exact absurd rfl hne
    · exact fun hin hin' => hapart first' a' ha' v hin' hin
    · exact hapart first a ha v
    · exact h.apart first a first' a' ha ha' hne v
  · rcases hlook first a ha with ⟨-, rfl⟩ | ⟨-, ha⟩
    · exact ⟨hsize hpage, hnew⟩
    · exact h.empty first a ha hpage

theorem allocateSpace_listed {params : IoctlAllocSpace} (h : s.Listed)
    (hsteady : s.SteadyAllocate params) (hcall : s.allocateSpace d params = some o) :
    o.state.Listed := by
  rw [allocateSpace] at hcall
  split at hcall
  · cases hcall
    exact h
  · rename_i hsupported
    split at hcall
    · cases hcall
      exact h
    · obtain ⟨⟨off, al⟩, hplace, rfl⟩ := Option.map_eq_some_iff.mp hcall
      dsimp only
      split
      · exact h.congr setAllocator_mappingMap setAllocator_allocationMap
      · refine @NvhostAsGpu.Listed.allocate _ _ off h (newAllocation params) rfl (fun hz => ?_)
            (hsteady off al hplace) setAllocator_mappingMap ?_
        · exact congrArg (params.pages.toNat * ·) hz
        · dsimp only
          rw [setAllocator_allocationMap]

/-- A new mapping in a list. -/
theorem Listed.map (h : s.Listed) (ha : s.allocationMap.lookup first = some a)
    (hm : s.mappingMap.lookup m.offset = none) (hf : m.fixed = true) (hpos : 0 < m.size)
    (hle : first ≤ m.offset) (hend : m.offset + m.size ≤ first + a.size)
    (hmap : s'.mappingMap = s.mappingMap.insert m.offset m)
    (halloc : s'.allocationMap =
      s.allocationMap.insert first { a with mappings := a.mappings ++ [m] }) : s'.Listed := by
  have hlook : ∀ first' b, s'.allocationMap.lookup first' = some b →
      ∃ b', s.allocationMap.lookup first' = some b' ∧ b.size = b'.size ∧ b.pageSize = b'.pageSize ∧
        ((first' = first ∧ b' = a ∧ b.mappings = a.mappings ++ [m]) ∨ b = b') := by
    intro first' b hb
    rw [halloc] at hb
    by_cases hfirst : first' = first
    · rw [hfirst, AList.lookup_insert] at hb
      obtain rfl := Option.some.inj hb
      exact ⟨a, hfirst ▸ ha, rfl, rfl, .inl ⟨hfirst, rfl, rfl⟩⟩
    · rw [AList.lookup_insert_ne hfirst] at hb
      exact ⟨b, hb, rfl, rfl, .inr rfl⟩
  have hkeep : ∀ x first' b, s.allocationMap.lookup first' = some b → x ∈ b.mappings →
      s'.mappingMap.lookup x.offset = some x := by
    intro x first' b hb hx
    have hlive := (h.live first' b hb x hx).1
    have hne : x.offset ≠ m.offset := fun heq => by
      rw [heq, hm] at hlive
      exact nomatch hlive
    rw [hmap, AList.lookup_insert_ne hne, hlive]
  refine ⟨fun off x hx => ?_, fun first' b hb => ?_, fun first' b hb => ?_,
    fun first1 b1 first2 b2 hb1 hb2 hne v => ?_, fun first' b hb hpage => ?_⟩
  · rw [hmap] at hx
    by_cases hoff : off = m.offset
    · rw [hoff, AList.lookup_insert] at hx
      obtain rfl := Option.some.inj hx
      exact ⟨hf, hpos, hoff.symm, first, _, by rw [halloc, AList.lookup_insert],
        List.mem_append_right _ List.mem_cons_self⟩
    · rw [AList.lookup_insert_ne hoff] at hx
      obtain ⟨hxf, hxpos, hxoff, first', b, hb, hmem⟩ := h.homes off x hx
      refine ⟨hxf, hxpos, hxoff, ?_⟩
      by_cases hfirst : first' = first
      · subst hfirst
        obtain rfl := Option.some.inj (ha.symm.trans hb)
        exact ⟨first', _, by rw [halloc, AList.lookup_insert], List.mem_append_left _ hmem⟩
      · exact ⟨first', b, by rw [halloc, AList.lookup_insert_ne hfirst, hb], hmem⟩
  · obtain ⟨b', hb', hsz, -, ⟨rfl, rfl, hlist⟩ | rfl⟩ := hlook first' b hb
    · intro x hx
      rw [hlist] at hx
      rw [hsz]
      rcases List.mem_append.mp hx with hx | hx
      · exact ⟨hkeep x first' b' hb' hx, (h.live first' b' hb' x hx).2⟩
      · rw [List.mem_singleton.mp hx, hmap]
        exact ⟨AList.lookup_insert _, hle, hend⟩
    · exact fun x hx => ⟨hkeep x first' b hb' hx, (h.live first' b hb' x hx).2⟩
  · obtain ⟨b', hb', -, -, ⟨rfl, rfl, hlist⟩ | rfl⟩ := hlook first' b hb
    · rw [hlist, List.map_append, List.nodup_append]
      refine ⟨h.nodup first' b' hb', List.nodup_singleton _, ?_⟩
      rintro y hy z hz rfl
      obtain ⟨x, hx, rfl⟩ := List.mem_map.mp hy
      have hlive := (h.live first' b' hb' x hx).1
      rw [List.mem_singleton.mp hz, hm] at hlive
      exact nomatch hlive
    · exact h.nodup first' b hb'
  · obtain ⟨b1', hb1', hs1, -⟩ := hlook first1 b1 hb1
    obtain ⟨b2', hb2', hs2, -⟩ := hlook first2 b2 hb2
    rw [InRange, InRange, hs1, hs2]
    exact h.apart first1 b1' first2 b2' hb1' hb2' hne v
  · obtain ⟨b', hb', hsz, hps, hcase⟩ := hlook first' b hb
    obtain ⟨hzero, hnil⟩ := h.empty first' b' hb' (hps ▸ hpage)
    rcases hcase with ⟨rfl, rfl, -⟩ | rfl
    · omega
    · exact ⟨hzero, hnil⟩

theorem mapFixed_listed {params : IoctlMapBufferEx} {dev size : Nat} {bigPage : Bool} (h : s.Listed)
    (hpos : 0 < size)
    (hsteady : ∀ first a, s.allocationBelow params.offset.toNat = some (first, a) →
      endInside first params.offset.toNat size ≤ a.size →
      params.offset.toNat + size ≤ first + a.size ∧ s.mappingMap.lookup params.offset.toNat = none) :
    (s.mapFixed d params dev size bigPage).state.Listed := by
  rw [mapFixed]
  split
  · exact h
  · rename_i first a hbelow
    obtain ⟨ha, hle⟩ := allocationBelow_some hbelow
    split
    · exact h
    · rename_i hend
      obtain ⟨hinside, hnone⟩ := hsteady first a hbelow (not_lt.mp hend)
      exact h.map (m := ⟨params.handle, dev, params.offset.toNat, size, true, a.bigPages && bigPage,
        a.sparse⟩) ha hnone rfl hpos hle hinside rfl rfl

theorem mapBufferEx_listed {params : IoctlMapBufferEx} (h : s.Listed)
    (hsteady : s.SteadyMap params) (hcall : s.mapBufferEx d params placement = some o) :
    o.state.Listed := by
  rw [mapBufferEx] at hcall
  split at hcall
  · obtain rfl := Option.some.inj hcall
    rw [remapBuffer]
    split
    · exact h
    · split
      · exact h
      · exact h.congr rfl rfl
  · rename_i hremap
    obtain ⟨hfixed, hsteady⟩ := hsteady.resolve_left hremap
    split at hcall
    · cases hcall
      exact h
    · rename_i handle hhandle
      obtain ⟨pin, hpin, hcall⟩ := Option.bind_eq_some_iff.mp hcall
      rw [if_pos hfixed] at hcall
      obtain rfl := Option.some.inj hcall
      have h' : ({ s with nvmap := pin.2 } : NvhostAsGpu).Listed := h.congr rfl rfl
      exact mapFixed_listed h' mappedSize_pos fun first a hbelow hend =>
        hsteady handle first a hhandle hbelow hend

/-- `Remap` leaves both maps as they are. -/
theorem remapEntry_maps {entry : IoctlRemapEntry} {r : NvResult × NvhostAsGpu}
    (hcall : s.remapEntry d entry placement = some r) :
    r.2.mappingMap = s.mappingMap ∧ r.2.allocationMap = s.allocationMap := by
  rw [remapEntry] at hcall
  split at hcall
  · cases hcall
    exact ⟨rfl, rfl⟩
  · dsimp only at hcall
    split at hcall
    · cases hcall
      exact ⟨rfl, rfl⟩
    · split at hcall
      · cases hcall
        exact ⟨rfl, rfl⟩
      · split at hcall
        · cases hcall
          exact ⟨rfl, rfl⟩
        · split at hcall
          · cases hcall
            exact ⟨rfl, rfl⟩
          · obtain ⟨pin, -, rfl⟩ := Option.map_eq_some_iff.mp hcall
            exact ⟨rfl, rfl⟩

theorem remap_maps {entries : List (IoctlRemapEntry × Placement)} (hcall : s.remap d entries = some o) :
    o.state.mappingMap = s.mappingMap ∧ o.state.allocationMap = s.allocationMap := by
  induction entries generalizing s with
  | nil =>
    obtain rfl := Option.some.inj hcall
    exact ⟨rfl, rfl⟩
  | cons entry entries ih =>
    obtain ⟨⟨result, s1⟩, hentry, hcall⟩ := Option.bind_eq_some_iff.mp hcall
    obtain ⟨hmap, halloc⟩ := remapEntry_maps hentry
    cases result with
    | success =>
      obtain ⟨hmap', halloc'⟩ := ih hcall
      exact ⟨hmap'.trans hmap, halloc'.trans halloc⟩
    | _ =>
      obtain rfl := Option.some.inj hcall
      exact ⟨hmap, halloc⟩

/-! ## 4. FreeSpace -/

theorem freeMappings_live {l : List Mapping}
    (hlive : ∀ x ∈ l, s.mappingMap.lookup x.offset = some x ∧ x.fixed = true)
    (hnodup : (l.map Mapping.offset).Nodup) : ∃ s', freeMappings d l s = some (true, s') := by
  induction l generalizing s with
  | nil => exact ⟨s, rfl⟩
  | cons x l ih =>
    obtain ⟨hx, hfixed⟩ := hlive x List.mem_cons_self
    rw [List.map_cons, List.nodup_cons] at hnodup
    rw [freeMappings_cons_eq hx hfixed]
    refine ih (fun y hy => ?_) hnodup.2
    obtain ⟨hy', hyf⟩ := hlive y (List.mem_cons_of_mem x hy)
    have hne : y.offset ≠ x.offset := fun heq => hnodup.1 (heq ▸ List.mem_map_of_mem hy)
    exact ⟨(AList.lookup_erase_ne hne).trans hy', hyf⟩

theorem Listed.freeMappings (h : s.Listed) (ha : s.allocationMap.lookup first = some a) :
    ∃ s', NvhostAsGpu.freeMappings d a.mappings s = some (true, s') ∧
      Frees s (a.mappings.map Mapping.offset) s' := by
  have hlive : ∀ x ∈ a.mappings, s.mappingMap.lookup x.offset = some x ∧ x.fixed = true :=
    fun x hx => by
      have hx' := (h.live first a ha x hx).1
      exact ⟨hx', (h.homes _ _ hx').1⟩
  obtain ⟨s', hs'⟩ := freeMappings_live (d := d) hlive (h.nodup first a ha)
  refine ⟨s', hs', freeMappings_frees (fun x hx m hm => ?_) hs'⟩
  obtain rfl := Option.some.inj ((hlive x hx).1.symm.trans hm)
  exact (hlive x hx).2

/-- `FreeSpace` behind its loop: what stays, and when it has a result. -/
theorem finishFreeSpace_spec {params : IoctlFreeSpace} :
    (∀ s', s.finishFreeSpace d params a = some s' → s'.mappingMap = s.mappingMap ∧
      s'.allocationMap = s.allocationMap.erase params.offset.toNat ∧ s'.nvmap = s.nvmap ∧
      ∀ big page, s'.gmmu.entryOf big page = .mapped → s.gmmu.entryOf big page = .mapped) ∧
    ((s.finishFreeSpace d params a).isSome ↔
      (s.freePages (params.pageSize.toNat ≠ pageSize) params.offset.toNat a.size).isSome) := by
  constructor
  · intro s' hs'
    obtain ⟨s2, hs2, rfl⟩ := Option.map_eq_some_iff.mp hs'
    obtain ⟨al, -, rfl⟩ := Option.map_eq_some_iff.mp hs2
    refine ⟨setAllocator_mappingMap, ?_, setAllocator_nvmap, fun big page hp => ?_⟩
    · dsimp only
      rw [setAllocator_allocationMap]
    · dsimp only at hp
      rw [setAllocator_gmmu] at hp
      dsimp only at hp
      split at hp
      · exact entryOf_unmap_le hp
      · exact hp
  · rw [finishFreeSpace, freePages, freePages, Option.isSome_map, Option.isSome_map, Option.isSome_map]
    cases decide (params.pageSize.toNat ≠ pageSize) <;> exact Iff.rfl

/-- An allocation that lists no live mapping leaves the lists right when it goes. -/
theorem Listed.erase (h : s.Listed) (ha : s.allocationMap.lookup first = some a)
    (hfrees : Frees s (a.mappings.map Mapping.offset) s')
    {s'' : NvhostAsGpu} (hmap : s''.mappingMap = s'.mappingMap)
    (halloc : s''.allocationMap = s.allocationMap.erase first) : s''.Listed := by
  have hlook : ∀ first' b, s''.allocationMap.lookup first' = some b →
      first' ≠ first ∧ s.allocationMap.lookup first' = some b := by
    intro first' b hb
    rw [halloc] at hb
    have hne : first' ≠ first := by
      rintro rfl
      rw [AList.lookup_erase] at hb
      exact nomatch hb
    exact ⟨hne, by rwa [← AList.lookup_erase_ne hne]⟩
  have hlookm : ∀ off m, s''.mappingMap.lookup off = some m →
      off ∉ a.mappings.map Mapping.offset ∧ s.mappingMap.lookup off = some m := by
    intro off m hm
    rw [hmap] at hm
    have hout : off ∉ a.mappings.map Mapping.offset := fun hin => by
      rw [hfrees.lookup_mem off hin] at hm
      exact nomatch hm
    exact ⟨hout, by rwa [← hfrees.lookup_not_mem off hout]⟩
  refine ⟨fun off m hm => ?_, fun first' b hb x hx => ?_,
    fun first' b hb => h.nodup first' b (hlook first' b hb).2, fun first1 b1 first2 b2 hb1 hb2 =>
      h.apart first1 b1 first2 b2 (hlook _ _ hb1).2 (hlook _ _ hb2).2,
    fun first' b hb => h.empty first' b (hlook first' b hb).2⟩
  · obtain ⟨hout, hm⟩ := hlookm off m hm
    obtain ⟨hf, hpos, hoff, first', b, hb, hmem⟩ := h.homes off m hm
    have hne : first' ≠ first := by
      rintro rfl
      obtain rfl := Option.some.inj (ha.symm.trans hb)
      exact hout (hoff ▸ List.mem_map_of_mem hmem)
    exact ⟨hf, hpos, hoff, first', b, by rw [halloc, AList.lookup_erase_ne hne, hb], hmem⟩
  · obtain ⟨hne, hb⟩ := hlook first' b hb
    obtain ⟨hlive, hrange⟩ := h.live first' b hb x hx
    have hout : x.offset ∉ a.mappings.map Mapping.offset := fun hin => by
      obtain ⟨y, hy, heq⟩ := List.mem_map.mp hin
      have hiny := h.inRange ha hy
      rw [heq] at hiny
      exact h.apart first' b first a hb ha hne _ (h.inRange hb hx) hiny
    exact ⟨by rw [hmap, hfrees.lookup_not_mem _ hout, hlive], hrange⟩

theorem freeSpace_listed {params : IoctlFreeSpace} (h : s.Listed)
    (hcall : s.freeSpace d params = some o) : o.state.Listed := by
  cases ha : s.allocationMap.lookup params.offset.toNat with
  | some a =>
    rw [freeSpace_eq ha] at hcall
    split at hcall
    · cases hcall
      exact h
    · obtain ⟨s1, hrun, hfrees⟩ := h.freeMappings (d := d) ha
      rw [hrun] at hcall
      obtain ⟨s', hfinish, rfl⟩ := Option.map_eq_some_iff.mp hcall
      obtain ⟨hmap, halloc, -⟩ := finishFreeSpace_spec.1 s' hfinish
      exact h.erase ha hfrees hmap (halloc.trans (by rw [hfrees.allocationMap]))
  | none =>
    by_cases hsize : params.pageSize = 0
    · rw [freeSpace_empty ha hsize] at hcall
      obtain ⟨al, -, rfl⟩ := Option.map_eq_some_iff.mp hcall
      exact h.congr rfl rfl
    · rw [freeSpace_absent ha hsize] at hcall
      obtain rfl := Option.some.inj hcall
      refine @NvhostAsGpu.Listed.allocate _ _ _ h {} rfl (fun _ => rfl)
          (fun first a hfirst _ => ⟨?_, ?_⟩) rfl rfl
      · rintro rfl
        rw [ha] at hfirst
        exact nomatch hfirst
      · rintro v - ⟨hle, hlt⟩
        exact absurd hlt (not_lt.mpr hle)

/-! ## 5. Runs -/

theorem call_listed {op : Ioctl} (h : s.Listed) (hsteady : s.Steady op)
    (hcall : s.call d op = some o) : o.state.Listed := by
  cases op with
  | allocAsEx params =>
    obtain rfl := Option.some.inj hcall
    exact h
  | allocateSpace params => exact allocateSpace_listed h hsteady hcall
  | freeSpace params => exact freeSpace_listed h hcall
  | mapBufferEx params placement => exact mapBufferEx_listed h hsteady hcall
  | unmapBuffer offset =>
    have hnone : s.mappingMap.lookup offset.toNat = none := hsteady
    have hcall : s.unmapBuffer d offset = some o := hcall
    rw [unmapBuffer, hnone] at hcall
    obtain rfl := Option.some.inj hcall
    exact h
  | remap entries =>
    obtain ⟨hmap, halloc⟩ := remap_maps hcall
    exact h.congr hmap halloc

end NvhostAsGpu

/-- The condition of a call of the device; before `AllocAsEx` there is none. -/
def Device.Steady : Device → Ioctl → Prop
  | .uninitialised _, _ => True
  | .initialised s, op => s.Steady op

/-- The lists of a device. -/
def Device.Listed : Device → Prop
  | .uninitialised _ => True
  | .initialised s => s.Listed

theorem Device.ioctl_listed {d : DeviceMemory} {v : Device} {op : Ioctl} {o : Outcome Device}
    (h : v.Listed) (hsteady : v.Steady op) (hcall : v.ioctl d op = some o) : o.state.Listed := by
  cases v with
  | uninitialised n =>
    cases op with
    | allocAsEx params =>
      rw [Device.ioctl, Yuzu.Service.allocAsEx] at hcall
      split at hcall
      · cases hcall
        trivial
      · obtain ⟨s, hmake, rfl⟩ := Option.map_eq_some_iff.mp hcall
        rw [makeSpace] at hmake
        split at hmake
        · obtain rfl := Option.some.inj hmake
          refine ⟨fun _ _ hm => ?_, fun _ _ ha => ?_, fun _ _ ha => ?_, fun _ _ _ _ ha => ?_,
            fun _ _ ha => ?_⟩
          · cases hm
          · cases ha
          · cases ha
          · cases ha
          · cases ha
        · cases hmake
    | _ =>
      cases hcall
      trivial
  | initialised s =>
    obtain ⟨r, hr, rfl⟩ := Option.map_eq_some_iff.mp hcall
    exact NvhostAsGpu.call_listed h hsteady hr

namespace NvhostAsGpu

/-- The mapping lies inside the allocation. -/
def Inside (first : Nat) (a : Allocation) (off : Nat) (m : Mapping) : Prop :=
  first ≤ off ∧ off + m.size ≤ first + a.size

/-- **What freeing an allocation is for**: it succeeds, the mappings inside and no others are gone,
each pin once, their pages are not mapped any more, and the allocation is removed. -/
structure FreesAllocation (s : NvhostAsGpu) (first : Nat) (a : Allocation)
    (o : Outcome NvhostAsGpu) : Prop where
  result : o.result = .success
  inside : ∀ off m, s.mappingMap.lookup off = some m → Inside first a off m →
    o.state.mappingMap.lookup off = none ∧
    ∀ page, s.gmmu.Walks m.bigPage off m.size page → o.state.gmmu.entryOf m.bigPage page ≠ .mapped
  outside : ∀ off m, s.mappingMap.lookup off = some m → ¬ Inside first a off m →
    o.state.mappingMap.lookup off = some m
  pins : ∀ id, o.state.nvmap.pinsOf id = (s.nvmap.pinsOf id).map
    (· + ((liveMappings o.state.mappingMap id : Int) - liveMappings s.mappingMap id))
  removed : o.state.allocationMap = s.allocationMap.erase first

end NvhostAsGpu

open NvhostAsGpu in
/-- **A live allocation can be freed.** After every run of calls that meet their conditions,
`FreeSpace` with the values of a live allocation has a result exactly if the free of its pages trips
no assertion of the allocator, and then does what it is for. -/
theorem freeSpace_frees (d : DeviceMemory) (n₀ : NvMap) (ops : List Ioctl) (s : NvhostAsGpu)
    (hrun : PartialRun (Device.ioctl d) Outcome.state (fun v op _ => v.Steady op)
      (.uninitialised n₀) ops (.initialised s)) (params : IoctlFreeSpace) (a : Allocation)
    (ha : s.allocationMap.lookup params.offset.toNat = some a)
    (hpage : a.pageSize = params.pageSize.toNat)
    (hsize : a.size = params.pages.toNat * params.pageSize.toNat) :
    ((s.freeSpace d params).isSome ↔
      (s.freePages (params.pageSize.toNat ≠ pageSize) params.offset.toNat a.size).isSome) ∧
    ∀ o, s.freeSpace d params = some o → s.FreesAllocation params.offset.toNat a o := by
  have hkeep : ∀ (v : Device) (op : Ioctl) (o : Outcome Device), v.Listed →
      Device.ioctl d v op = some o → v.Steady op → o.state.Listed :=
    fun v op o hv hcall hsteady => Device.ioctl_listed hv hsteady hcall
  have h : s.Listed := hrun.invariant Device.Listed hkeep trivial
  obtain ⟨s₁, hloop, hfrees⟩ := h.freeMappings (d := d) ha
  have heq : s.freeSpace d params = (s₁.finishFreeSpace d params a).map fun s' =>
      ⟨.success, params.offset.toNat, s'⟩ := by
    rw [freeSpace_eq ha, if_neg (not_or.mpr ⟨not_not.mpr hpage, not_not.mpr hsize⟩), hloop]
    rfl
  have hlisted : ∀ off m, s.mappingMap.lookup off = some m →
      (off ∈ a.mappings.map Mapping.offset ↔ Inside params.offset.toNat a off m) := by
    intro off m hm
    obtain ⟨-, hpos, hoff, -⟩ := h.homes off m hm
    constructor
    · intro hin
      obtain ⟨x, hx, heq⟩ := List.mem_map.mp hin
      obtain ⟨hlive, hrange⟩ := h.live _ a ha x hx
      rw [heq] at hlive hrange
      obtain rfl := Option.some.inj (hlive.symm.trans hm)
      exact hrange
    · rintro ⟨hle, hend⟩
      exact List.mem_map.mpr ⟨m, h.mem_of_inside ha hm ⟨hle, by omega⟩, hoff⟩
  constructor
  · rw [heq, Option.isSome_map, finishFreeSpace_spec.2, freePages, freePages, Option.isSome_map,
      Option.isSome_map, hfrees.allocator, pageSizeBits, pageSizeBits, hfrees.bits]
  · intro o ho
    rw [heq] at ho
    obtain ⟨s', hfinish, rfl⟩ := Option.map_eq_some_iff.mp ho
    obtain ⟨hmap, halloc, hnv, hle⟩ := finishFreeSpace_spec.1 s' hfinish
    refine ⟨rfl, fun off m hm hin => ⟨?_, fun page hwalk hmapped => ?_⟩, fun off m hm hout => ?_,
      fun id => ?_, ?_⟩
    · rw [hmap, hfrees.lookup_mem off ((hlisted off m hm).mpr hin)]
    · exact hfrees.released off ((hlisted off m hm).mpr hin) m hm page hwalk (hle _ _ hmapped)
    · rw [hmap, hfrees.lookup_not_mem off (mt (hlisted off m hm).mp hout), hm]
    · rw [hnv, hmap, hfrees.pins]
    · rw [halloc, hfrees.allocationMap]

open NvhostAsGpu in
/-- Four pages with a mapping in them can be freed. -/
theorem freeSpace_frees_fourPages : ∃ s a o,
    PartialRun (Device.ioctl identityMemory) Outcome.state (fun v op _ => v.Steady op)
      (.uninitialised oneHandle)
      [.allocAsEx {}, .allocateSpace { pages := 4, pageSize := 0x1000 },
        .mapBufferEx { flags := { fixed := true }, handle := 1, offset := 0x8001000 }
          (.heap 0x10000)] (.initialised s) ∧
    s.freeSpace identityMemory ⟨0x8000000, 4, 0x1000⟩ = some o ∧
    s.FreesAllocation 0x8000000 a o := by
  have hrun : ∃ s a o, PartialRun (Device.ioctl identityMemory) Outcome.state
      (fun v op _ => v.Steady op) (.uninitialised oneHandle)
      [.allocAsEx {}, .allocateSpace { pages := 4, pageSize := 0x1000 },
        .mapBufferEx { flags := { fixed := true }, handle := 1, offset := 0x8001000 }
          (.heap 0x10000)] (.initialised s) ∧
      s.allocationMap.lookup 0x8000000 = some a ∧ a.pageSize = 0x1000 ∧ a.size = 0x4000 ∧
      s.freeSpace identityMemory ⟨0x8000000, 4, 0x1000⟩ = some o := by
    refine ⟨_, _, _, .cons (allocAsEx_default oneHandle) trivial (.cons rfl ?_ (.cons rfl ?_
      (.nil _))), rfl, rfl, rfl, rfl⟩
    · exact fun off al _ first a ha => nomatch ha
    · refine .inr ⟨rfl, fun handle first a hhandle hbelow _ => ?_⟩
      obtain rfl := Option.some.inj hhandle
      obtain ⟨rfl, rfl⟩ := Prod.mk.inj (Option.some.inj hbelow)
      exact ⟨by decide, rfl⟩
  obtain ⟨s, a, o, hrun, ha, hpage, hsize, ho⟩ := hrun
  exact ⟨s, a, o, hrun, ho, (freeSpace_frees _ _ _ _ hrun ⟨0x8000000, 4, 0x1000⟩ a ha hpage hsize).2 o ho⟩

open NvhostAsGpu in
/-- A mapping is unmapped before its allocation is freed: `FreeSpace` fails, and the allocation
stays. -/
theorem freeSpace_fails_after_unmap : ∃ s o,
    PartialRun (Device.ioctl identityMemory) Outcome.state (fun _ _ o => o.result = .success)
      (.uninitialised oneHandle)
      [.allocAsEx {}, .allocateSpace { pages := 4, pageSize := 0x1000 },
        .mapBufferEx { flags := { fixed := true }, handle := 1, offset := 0x8001000 }
          (.heap 0x10000), .unmapBuffer 0x8001000] (.initialised s) ∧
    (∃ a, s.allocationMap.lookup 0x8000000 = some a ∧ a.pageSize = 0x1000 ∧ a.size = 0x4000) ∧
    s.freeSpace identityMemory ⟨0x8000000, 4, 0x1000⟩ = some o ∧ o.result = .badValue ∧
    (o.state.allocationMap.lookup 0x8000000).isSome := by
  refine ⟨_, _, .cons (allocAsEx_default oneHandle) rfl (.cons rfl rfl (.cons rfl rfl
    (.cons rfl rfl (.nil _)))), ⟨_, rfl, rfl, rfl⟩, rfl, rfl, rfl⟩

end Yuzu.Service
