/-
  File:      Yuzu/Core/DeviceReverseMap.lean
  Subject:   The way back from a physical page to its device pages is exact, in every state that
             mapping and unmapping lead to.
-/
import Yuzu.Core.DeviceMemoryManager

namespace Yuzu.Core.DeviceMemoryManager

open MultiAddressContainer List Function

variable {m : DeviceMemoryManager} {ids : Nat → List Nat} {d p start w : Nat}

/-! ## 1. Words of `compressed_device_addr` -/

theorem shift_eq_zero_iff : w >>> multiFlagBits = 0 ↔ w < 2 ^ 31 := by
  rw [Nat.shiftRight_eq_div_pow, multiFlagBits, Nat.div_eq_zero_iff_lt (by decide)]

theorem mask_flag (h : start < 2 ^ 31) : (2 ^ 31 + start) &&& multiMask = start := by
  rw [multiMask, Nat.and_two_pow_sub_one_eq_mod, Nat.add_mod_left, Nat.mod_eq_of_lt h]

theorem flag_or (h : start < 2 ^ 31) : multiFlag ||| start = 2 ^ 31 + start := by
  have := Nat.two_pow_add_eq_or_of_lt h 1
  rw [Nat.mul_one] at this
  rw [multiFlag, this]

/-! ## 2. The invariant -/

/-- The device pages that a chain of entries holds. -/
def chainValues (c : MultiAddressContainer) (L : List Nat) : List Nat :=
  L.map fun i => (c.storage i).value

/-- **A word is exact.** A physical page without a chain has the one device page that its word
    names, or none; one with a chain has those of its entries, two at least. -/
structure PageExact (m : DeviceMemoryManager) (p : Nat) (L : List Nat) : Prop where
  single : L = [] → m.compressedDeviceAddr p < 2 ^ 31 ∧
    ∀ d, m.compressedPhysicalPtr d = p + 1 ↔ d = m.compressedDeviceAddr p ∧ d ≠ 0
  multi : L ≠ [] → 2 ≤ L.length ∧
    (∃ start, L.head? = some start ∧ m.compressedDeviceAddr p = 2 ^ 31 + start) ∧
    (chainValues m.multiDevAddress L).Nodup ∧
    ∀ d, m.compressedPhysicalPtr d = p + 1 ↔ d ∈ chainValues m.multiDevAddress L

/-- **The reverse map is exact**, and the chains are in order. -/
structure ReverseInv (m : DeviceMemoryManager) (ids : Nat → List Nat) : Prop where
  chains : m.multiDevAddress.Chains ids
  size_lt : m.multiDevAddress.size < 2 ^ 31
  range : ∀ d, m.compressedPhysicalPtr d ≠ 0 → 0 < d ∧ d < 2 ^ 31
  page : ∀ p, PageExact m p (ids p)

theorem ReverseInv.initial : ReverseInv {} fun _ => [] where
  chains := Chains.empty
  size_lt := Nat.two_pow_pos 31
  range _ h := absurd rfl h
  page _ := ⟨fun _ => ⟨Nat.two_pow_pos 31, fun d => iff_of_false (by simp) fun h => h.2 h.1⟩,
    fun h => absurd rfl h⟩

theorem PageExact.flag_iff {L : List Nat} (h : PageExact m p L) :
    m.compressedDeviceAddr p >>> multiFlagBits = 0 ↔ L = [] := by
  rw [shift_eq_zero_iff]
  constructor
  · intro hlt
    by_contra hne
    obtain ⟨-, ⟨start, -, heq⟩, -⟩ := h.multi hne
    omega
  · exact fun hnil => (h.single hnil).1

theorem ReverseInv.start_lt (h : ReverseInv m ids) (hs : (ids p).head? = some start) : start < 2 ^ 31 :=
  (h.chains.valid p start (mem_of_head? hs)).2.trans_lt h.size_lt

theorem ReverseInv.value (h : ReverseInv m ids) {i : Nat} (hi : i ∈ ids p) :
    m.compressedPhysicalPtr (m.multiDevAddress.storage i).value = p + 1 :=
  (((h.page p).multi (ne_nil_of_mem hi)).2.2.2 _).mpr (mem_map.mpr ⟨i, hi, rfl⟩)

theorem ReverseInv.values_nodup (h : ReverseInv m ids) : (chainValues m.multiDevAddress (ids p)).Nodup := by
  by_cases hnil : ids p = []
  · rw [hnil]
    exact nodup_nil
  · exact ((h.page p).multi hnil).2.2.1

/-- **There is room for one more entry**, where the values are different device pages and the new
    one is not among them. -/
theorem room {c : MultiAddressContainer} {ptr : Nat → Nat} {v : Nat} (h : c.Chains ids)
    (hrange : ∀ d, ptr d ≠ 0 → 0 < d ∧ d < 2 ^ 31)
    (hvalue : ∀ q, ∀ i ∈ ids q, ptr (c.storage i).value = q + 1)
    (hnodup : ∀ q, (chainValues c (ids q)).Nodup) (hv : 0 < v ∧ v < 2 ^ 31)
    (hnew : ∀ q, ∀ i ∈ ids q, (c.storage i).value ≠ v) :
    c.freeEntries = [] → c.size + 1 < 2 ^ 31 := by
  intro hfree
  refine h.size_lt hfree (fun q q' i j hi hj heq => ?_) (fun q i hi => ?_) hv hnew
  · have hq := hvalue q i hi
    rw [heq, hvalue q' j hj] at hq
    obtain rfl : q' = q := by omega
    exact inj_on_of_nodup_map (hnodup q') hi hj heq
  · exact hrange _ (by rw [hvalue q i hi]; exact Nat.succ_ne_zero q)

/-- **Only the words of one physical page change.** -/
theorem ReverseInv.congr (h : ReverseInv m ids) {m' : DeviceMemoryManager} {L : List Nat}
    (hchains : m'.multiDevAddress.Chains (Function.update ids p L))
    (hsize : m'.multiDevAddress.size < 2 ^ 31)
    (hrange : ∀ d, m'.compressedPhysicalPtr d ≠ 0 → 0 < d ∧ d < 2 ^ 31)
    (hptr : ∀ q ≠ p, ∀ d, m'.compressedPhysicalPtr d = q + 1 ↔ m.compressedPhysicalPtr d = q + 1)
    (haddr : ∀ q ≠ p, m'.compressedDeviceAddr q = m.compressedDeviceAddr q)
    (hvalue : ∀ q ≠ p, ∀ i ∈ ids q,
      (m'.multiDevAddress.storage i).value = (m.multiDevAddress.storage i).value)
    (hpage : PageExact m' p L) : ReverseInv m' (Function.update ids p L) := by
  refine ⟨hchains, hsize, hrange, fun q => ?_⟩
  by_cases hq : q = p
  · subst hq
    rwa [update_self]
  · rw [update_of_ne hq]
    have hvalues : chainValues m'.multiDevAddress (ids q) = chainValues m.multiDevAddress (ids q) :=
      map_congr_left (hvalue q hq)
    refine ⟨fun hnil => ?_, fun hne => ?_⟩
    · rw [haddr q hq]
      exact ⟨((h.page q).single hnil).1,
        fun d => (hptr q hq d).trans (((h.page q).single hnil).2 d)⟩
    · obtain ⟨h2, hstart, hnodup, hiff⟩ := (h.page q).multi hne
      rw [haddr q hq, hvalues]
      exact ⟨h2, hstart, hnodup, fun d => (hptr q hq d).trans (hiff d)⟩

/-! ## 3. Mapping a page -/

theorem update_ptr_iff {ptr : Nat → Nat} {q d' : Nat} (hfree : ptr d = 0) :
    Function.update ptr d (p + 1) d' = q + 1 ↔ (q = p ∧ d' = d) ∨ ptr d' = q + 1 := by
  by_cases hd : d' = d
  · subst hd
    rw [update_self, hfree]
    omega
  · rw [update_of_ne hd]
    simp [hd]

theorem update_ptr_range {ptr : Nat → Nat} (hrange : ∀ d, ptr d ≠ 0 → 0 < d ∧ d < 2 ^ 31)
    (hd : 0 < d ∧ d < 2 ^ 31) (d' : Nat) (h : Function.update ptr d w d' ≠ 0) :
    0 < d' ∧ d' < 2 ^ 31 := by
  by_cases heq : d' = d
  · exact heq ▸ hd
  · rw [update_of_ne heq] at h
    exact hrange d' h

/-- **The first device page** of a physical page: the word names it. -/
theorem ReverseInv.mapFirst (h : ReverseInv m ids) (hd : 0 < d ∧ d < 2 ^ 31)
    (hfree : m.compressedPhysicalPtr d = 0) (hbase : m.compressedDeviceAddr p = 0) :
    ReverseInv { m with
      compressedPhysicalPtr := Function.update m.compressedPhysicalPtr d (p + 1)
      compressedDeviceAddr := Function.update m.compressedDeviceAddr p d } ids := by
  have hnil : ids p = [] := (h.page p).flag_iff.mp (by rw [hbase]; rfl)
  have hids : Function.update ids p [] = ids := by rw [← hnil, update_eq_self]
  rw [← hids]
  refine h.congr (by rw [hids]; exact h.chains) h.size_lt (update_ptr_range h.range hd)
    (fun q hq d' => ?_) (fun q hq => update_of_ne hq _ _) (fun _ _ _ _ => rfl)
    ⟨fun _ => ⟨?_, fun d' => ?_⟩, fun hne => absurd rfl hne⟩
  · rw [update_ptr_iff hfree]
    simp [hq]
  · dsimp only
    rw [update_self]
    exact hd.2
  · dsimp only
    rw [update_ptr_iff hfree, update_self, ((h.page p).single hnil).2 d', hbase]
    omega

/-- **The second device page**: a chain of two entries takes the word's place. -/
theorem ReverseInv.mapSecond (h : ReverseInv m ids) (hd : 0 < d ∧ d < 2 ^ 31)
    (hfree : m.compressedPhysicalPtr d = 0) (hbase : m.compressedDeviceAddr p ≠ 0)
    (hflag : m.compressedDeviceAddr p >>> multiFlagBits = 0) :
    ∃ ids', ReverseInv { m with
      compressedPhysicalPtr := Function.update m.compressedPhysicalPtr d (p + 1)
      compressedDeviceAddr := Function.update m.compressedDeviceAddr p (multiFlag |||
        (m.multiDevAddress.registerImplementation (m.compressedDeviceAddr p)).1)
      multiDevAddress :=
        (m.multiDevAddress.registerImplementation (m.compressedDeviceAddr p)).2.register d
          (m.multiDevAddress.registerImplementation (m.compressedDeviceAddr p)).1 } ids' := by
  have hnil : ids p = [] := (h.page p).flag_iff.mp hflag
  obtain ⟨hlt, hsingle⟩ := (h.page p).single hnil
  have howner := (hsingle _).mpr ⟨rfl, hbase⟩
  generalize m.compressedDeviceAddr p = base at hbase hlt hsingle howner ⊢
  have hne : base ≠ d := by
    rintro rfl
    rw [hfree] at howner
    cases howner
  -- the entry of the first device page
  have hroom := room h.chains h.range (fun q i hi => h.value hi) (fun q => h.values_nodup)
    ⟨Nat.pos_of_ne_zero hbase, hlt⟩ fun q i hi heq => by
      have hq := h.value hi
      rw [heq, howner] at hq
      obtain rfl : p = q := by omega
      rw [hnil] at hi
      cases hi
  have hroom' := fun hf => (hroom hf).trans (by decide : 2 ^ 31 < 2 ^ 32)
  obtain ⟨hnew, hentry⟩ := h.chains.registerImplementation (v := base) hroom'
  have hchains := h.chains.registerNew (v := base) hnil hroom'
  have hsize : (m.multiDevAddress.registerImplementation base).2.size < 2 ^ 31 := by
    rcases hnew.size with heq | ⟨hf, heq⟩
    · rw [heq]
      exact h.size_lt
    · rw [heq]
      exact hroom hf
  generalize (m.multiDevAddress.registerImplementation base).1 = s at hnew hentry hchains ⊢
  generalize (m.multiDevAddress.registerImplementation base).2 = c at hnew hentry hchains hsize ⊢
  have hold : ∀ q, ∀ i ∈ ids q, (c.storage i).value = (m.multiDevAddress.storage i).value :=
    fun q i hi => by rw [hnew.same i fun heq => hnew.unused q (heq ▸ hi)]
  have hvalue : ∀ q, ∀ i ∈ Function.update ids p [s] q,
      m.compressedPhysicalPtr (c.storage i).value = q + 1 := by
    intro q i hi
    by_cases hq : q = p
    · subst hq
      rw [update_self, mem_singleton] at hi
      rw [hi, hentry, howner]
    · rw [update_of_ne hq] at hi
      rw [hold q i hi, h.value hi]
  -- the entry of the second
  have hroom2 := room (v := d) hchains h.range hvalue (fun q => by
    by_cases hq : q = p
    · subst hq
      rw [update_self]
      exact nodup_singleton _
    · rw [update_of_ne hq, chainValues, map_congr_left (hold q)]
      exact h.values_nodup) hd fun q i hi heq => by
      have hq := hvalue q i hi
      rw [heq, hfree] at hq
      cases hq
  have hroom2' := fun hf => (hroom2 hf).trans (by decide : 2 ^ 31 < 2 ^ 32)
  have hhead : (Function.update ids p [s] p).head? = some s := by rw [update_self]; rfl
  obtain ⟨hnew2, -⟩ := hchains.registerImplementation (v := d) hroom2'
  have hchains2 := hchains.registerEnd (v := d) hhead hroom2'
  obtain ⟨hend, hkeep, hsize2⟩ := hchains.register_value (v := d) hhead hroom2'
  have hse : s ≠ (c.registerImplementation d).1 := fun heq =>
    hnew2.unused p (by rw [update_self, ← heq]; exact mem_singleton_self s)
  have hunused : ∀ q ≠ p, (c.registerImplementation d).1 ∉ ids q := fun q hq hmem =>
    hnew2.unused q (by rwa [update_of_ne hq])
  have hsizeEq : (c.registerImplementation d).2.size < 2 ^ 31 := by
    rcases hnew2.size with heq | ⟨hf, heq⟩
    · rw [heq]
      exact hsize
    · rw [heq]
      exact hroom2 hf
  rw [update_idem, update_self] at hchains2
  generalize (c.registerImplementation d).1 = e at *
  have hs : s < 2 ^ 31 := hnew.valid.2.trans_lt hsize
  have hvalues : chainValues (c.register d s) ([s] ++ [e]) = [base, d] := by
    simp [chainValues, hend, hkeep s hse, hentry]
  refine ⟨_, h.congr hchains2 (hsize2 ▸ hsizeEq) (update_ptr_range h.range hd)
    (fun q hq d' => ?_) (fun q hq => update_of_ne hq _ _) (fun q hq i hi => ?_)
    ⟨fun hnil => absurd hnil (by simp), fun _ => ⟨le_rfl, ⟨s, rfl, ?_⟩, ?_, fun d' => ?_⟩⟩⟩
  · rw [update_ptr_iff hfree]
    simp [hq]
  · rw [hkeep i fun heq => hunused q hq (heq ▸ hi), hold q i hi]
  · dsimp only
    rw [update_self]
    exact flag_or hs
  · rw [hvalues]
    simpa using hne
  · rw [update_ptr_iff hfree, hvalues, hsingle d']
    simp only [mem_cons, not_mem_nil, or_false, true_and]
    constructor
    · rintro (hd' | ⟨hd', -⟩)
      · exact .inr hd'
      · exact .inl hd'
    · rintro (hd' | hd')
      · exact .inr ⟨hd', hd' ▸ hbase⟩
      · exact .inl hd'

/-- **A further device page**: one more entry at the end of the chain. -/
theorem ReverseInv.mapFurther (h : ReverseInv m ids) (hd : 0 < d ∧ d < 2 ^ 31)
    (hfree : m.compressedPhysicalPtr d = 0)
    (hflag : m.compressedDeviceAddr p >>> multiFlagBits ≠ 0) :
    ∃ ids', ReverseInv { m with
      compressedPhysicalPtr := Function.update m.compressedPhysicalPtr d (p + 1)
      multiDevAddress :=
        m.multiDevAddress.register d (m.compressedDeviceAddr p &&& multiMask) } ids' := by
  have hne : ids p ≠ [] := fun hnil => hflag ((h.page p).flag_iff.mpr hnil)
  obtain ⟨hlen, ⟨s, hhead, hbase⟩, hnodup, hiff⟩ := (h.page p).multi hne
  have hmask : m.compressedDeviceAddr p &&& multiMask = s := by
    rw [hbase, mask_flag (h.start_lt hhead)]
  rw [hmask]
  have hroom := room (v := d) h.chains h.range (fun q i hi => h.value hi)
    (fun q => h.values_nodup) hd fun q i hi heq => by
      have hq := h.value hi
      rw [heq, hfree] at hq
      cases hq
  have hroom' := fun hf => (hroom hf).trans (by decide : 2 ^ 31 < 2 ^ 32)
  obtain ⟨hnew, -⟩ := h.chains.registerImplementation (v := d) hroom'
  have hchains := h.chains.registerEnd (v := d) hhead hroom'
  obtain ⟨hend, hkeep, hsize⟩ := h.chains.register_value (v := d) hhead hroom'
  have hsizeEq : (m.multiDevAddress.registerImplementation d).2.size < 2 ^ 31 := by
    rcases hnew.size with heq | ⟨hf, heq⟩
    · rw [heq]
      exact h.size_lt
    · rw [heq]
      exact hroom hf
  generalize (m.multiDevAddress.registerImplementation d).1 = e at *
  have hold : ∀ q, ∀ i ∈ ids q, ((m.multiDevAddress.register d s).storage i).value =
      (m.multiDevAddress.storage i).value :=
    fun q i hi => hkeep i fun heq => hnew.unused q (heq ▸ hi)
  have hvalues : chainValues (m.multiDevAddress.register d s) (ids p ++ [e]) =
      chainValues m.multiDevAddress (ids p) ++ [d] := by
    rw [chainValues, map_append, map_congr_left (hold p), map_singleton, hend]
    rfl
  refine ⟨_, h.congr hchains (hsize ▸ hsizeEq) (update_ptr_range h.range hd)
    (fun q hq d' => ?_) (fun q hq => rfl) (fun q hq i hi => hold q i hi)
    ⟨fun hnil => absurd hnil (by simp), fun _ => ⟨?_, ⟨s, ?_, hbase⟩, ?_, fun d' => ?_⟩⟩⟩
  · rw [update_ptr_iff hfree]
    simp [hq]
  · rw [length_append]
    omega
  · rw [List.head?_append_of_ne_nil _ hne, hhead]
  · rw [hvalues]
    refine nodup_append.mpr ⟨hnodup, nodup_singleton d, fun a ha b hb heq => ?_⟩
    rw [mem_singleton.mp hb] at heq
    have hd' := (hiff a).mpr ha
    rw [heq, hfree] at hd'
    cases hd'
  · rw [update_ptr_iff hfree, hvalues, hiff d', mem_append, mem_singleton]
    simp only [true_and]
    exact or_comm

theorem update_ptr_eq (h : m.compressedPhysicalPtr d = 0) :
    Function.update m.compressedPhysicalPtr d 0 = m.compressedPhysicalPtr := by
  rw [← h, update_eq_self]

/-- **A round of `Map`** keeps the reverse map exact. -/
theorem ReverseInv.mapPage (h : ReverseInv m ids) {ptr : Option Nat} (hd : 0 < d ∧ d < 2 ^ 31)
    (hfree : m.compressedPhysicalPtr d = 0) (hptr : ∀ phys, ptr = some phys → phys < physicalPages) :
    ∃ ids', ReverseInv (m.mapPage d ptr) ids' := by
  cases ptr with
  | none =>
    refine ⟨ids, ?_⟩
    rw [DeviceMemoryManager.mapPage, update_ptr_eq hfree]
    exact h
  | some p =>
    have hp : u32 (u32 p + 1) = p + 1 := by
      have := hptr p rfl
      simp only [physicalPages, u32] at this ⊢
      omega
    have hu : u32 d = d := Nat.mod_eq_of_lt (by omega)
    simp only [DeviceMemoryManager.mapPage, hp, hu, Nat.add_sub_cancel]
    split
    · next hbase => exact ⟨ids, h.mapFirst hd hfree hbase⟩
    · next hbase =>
      split
      · next hflag => exact h.mapSecond hd hfree hbase hflag
      · next hflag => exact h.mapFurther hd hfree hflag

/-! ## 4. Unmapping a page -/

theorem update_zero_iff {ptr : Nat → Nat} {q d' : Nat} :
    Function.update ptr d 0 d' = q + 1 ↔ d' ≠ d ∧ ptr d' = q + 1 := by
  by_cases hd : d' = d
  · subst hd
    simp
  · simp [hd]

theorem update_zero_range {ptr : Nat → Nat} (hrange : ∀ d, ptr d ≠ 0 → 0 < d ∧ d < 2 ^ 31)
    (d' : Nat) (h : Function.update ptr d 0 d' ≠ 0) : 0 < d' ∧ d' < 2 ^ 31 := by
  by_cases heq : d' = d
  · subst heq
    exact absurd (update_self ..) h
  · rw [update_of_ne heq] at h
    exact hrange d' h

/-- **The only device page** of a physical page goes. -/
theorem ReverseInv.unmapOnly (h : ReverseInv m ids) (hptr : m.compressedPhysicalPtr d = p + 1)
    (hflag : m.compressedDeviceAddr p >>> multiFlagBits = 0) :
    ReverseInv { m with
      compressedPhysicalPtr := Function.update m.compressedPhysicalPtr d 0
      compressedDeviceAddr := Function.update m.compressedDeviceAddr p 0 } ids := by
  have hnil : ids p = [] := (h.page p).flag_iff.mp hflag
  have hids : Function.update ids p [] = ids := by rw [← hnil, update_eq_self]
  obtain ⟨-, hsingle⟩ := (h.page p).single hnil
  rw [← hids]
  refine h.congr (by rw [hids]; exact h.chains) h.size_lt (update_zero_range h.range)
    (fun q hq d' => ?_) (fun q hq => update_of_ne hq _ _) (fun _ _ _ _ => rfl)
    ⟨fun _ => ⟨?_, fun d' => ?_⟩, fun hne => absurd rfl hne⟩
  · rw [update_zero_iff, and_iff_right_iff_imp]
    rintro hd' rfl
    omega
  · dsimp only
    rw [update_self]
    exact Nat.two_pow_pos 31
  · dsimp only
    rw [update_zero_iff, update_self, hsingle d', ((hsingle d).mp hptr).1]
    omega

/-- **One of several device pages** goes: the chain is shorter, and where one entry remains its
    device page takes the chain's place. -/
theorem ReverseInv.unmapOneOf (h : ReverseInv m ids) (hptr : m.compressedPhysicalPtr d = p + 1)
    (hflag : m.compressedDeviceAddr p >>> multiFlagBits ≠ 0) :
    ∃ ids', ReverseInv (m.unmapPage d) ids' := by
  have hne : ids p ≠ [] := fun hnil => hflag ((h.page p).flag_iff.mpr hnil)
  obtain ⟨hlen, ⟨s, hhead, hbase⟩, hnodup, hiff⟩ := (h.page p).multi hne
  have hmask : m.compressedDeviceAddr p &&& multiMask = s := by
    rw [hbase, mask_flag (h.start_lt hhead)]
  have hu : u32 d = d := Nat.mod_eq_of_lt (by
    have := (h.range d (by rw [hptr]; exact Nat.succ_ne_zero p)).2
    omega)
  -- the entry of the device page
  obtain ⟨i, hi, hvalue⟩ := mem_map.mp ((hiff d).mp hptr)
  obtain ⟨A, B, hchain⟩ := append_of_mem hi
  have hvalues : chainValues m.multiDevAddress (ids p) =
      chainValues m.multiDevAddress A ++ d :: chainValues m.multiDevAddress B := by
    rw [hchain, chainValues, map_append, map_cons, hvalue]
    rfl
  rw [hvalues] at hnodup
  have hA : ∀ a ∈ A, (m.multiDevAddress.storage a).value ≠ d := fun a ha heq =>
    (disjoint_of_nodup_append hnodup) (mem_map.mpr ⟨a, ha, heq⟩) mem_cons_self
  obtain ⟨hmore, hstart, hchains, hkeep, hsize⟩ :=
    h.chains.unregister hchain hhead hA hvalue
  have hrest : chainValues m.multiDevAddress A ++ chainValues m.multiDevAddress B =
      chainValues (m.multiDevAddress.unregister d s).2 (A ++ B) := by
    rw [chainValues, chainValues, chainValues, ← map_append]
    exact map_congr_left fun j _ => (hkeep j).symm
  have hnodup' := (nodup_cons.mp (nodup_middle.mp hnodup))
  have hmem : ∀ d', Function.update m.compressedPhysicalPtr d 0 d' = p + 1 ↔
      d' ∈ chainValues (m.multiDevAddress.unregister d s).2 (A ++ B) := by
    intro d'
    rw [update_zero_iff, hiff d', hvalues, ← hrest]
    constructor
    · rintro ⟨hd', hin⟩
      simpa [hd'] using hin
    · intro hin
      refine ⟨?_, ?_⟩
      · rintro rfl
        exact hnodup'.1 hin
      · rw [mem_append] at hin ⊢
        exact hin.imp id (mem_cons_of_mem _)
  rw [hrest] at hnodup'
  rw [hchain, length_append, length_cons] at hlen
  have hABne : A ++ B ≠ [] := by
    intro hnil
    obtain ⟨rfl, rfl⟩ := append_eq_nil_iff.mp hnil
    simp at hlen
  have hstart := hstart hABne
  have hbaseFlag : ¬ (2 ^ 31 + s) >>> multiFlagBits = 0 := by rwa [hbase] at hflag
  simp only [unmapPage, hptr, Nat.add_sub_cancel, hbase, mask_flag (h.start_lt hhead), hu,
    if_neg hbaseFlag, if_pos (Nat.succ_ne_zero p), hmore]
  have hother : ∀ q ≠ p, ∀ d', Function.update m.compressedPhysicalPtr d 0 d' = q + 1 ↔
        m.compressedPhysicalPtr d' = q + 1 := by
    intro q hq d'
    rw [update_zero_iff, and_iff_right_iff_imp]
    rintro hd' rfl
    omega
  by_cases hlong : 2 ≤ (A ++ B).length
  · -- the chain goes on
    rw [if_neg (by simp at hlong ⊢; omega)]
    refine ⟨_, h.congr hchains (hsize ▸ h.size_lt) (update_zero_range h.range) hother
      (fun q hq => update_of_ne hq _ _) (fun q hq j hj => hkeep j)
      ⟨fun hnil => absurd hnil hABne, fun _ => ⟨hlong, ⟨_, hstart, ?_⟩, hnodup'.2, hmem⟩⟩⟩
    dsimp only
    have hvalid := (hchains.valid p _ (by
      rw [update_self]; exact mem_of_head? hstart)).2
    rw [update_self, Nat.or_comm]
    exact flag_or (hvalid.trans_lt (hsize ▸ h.size_lt))
  · -- the last entry is released
    rw [if_pos (by simp at hlong ⊢; omega)]
    obtain ⟨j, hj⟩ : ∃ j, A ++ B = [j] := length_eq_one_iff.mp (by
      have := length_pos_iff.mpr hABne
      omega)
    rw [hj] at hstart hchains hmem
    cases hstart
    generalize (m.multiDevAddress.unregister d s).1.2 = j at *
    have hrelease := @MultiAddressContainer.Chains.releaseEntry j _ _ p hchains (update_self ..)
    rw [update_idem] at hrelease
    have hjd : ∀ d', Function.update m.compressedPhysicalPtr d 0 d' = p + 1 ↔
        d' = ((m.multiDevAddress.unregister d s).2.storage j).value := by
      intro d'
      rw [hmem d', chainValues, map_singleton, mem_singleton]
    have hjrange := update_zero_range h.range _ (by rw [(hjd _).mpr rfl]; exact Nat.succ_ne_zero p)
    refine ⟨_, h.congr hrelease (hsize ▸ h.size_lt) (update_zero_range h.range) hother
      (fun q hq => update_of_ne hq _ _) (fun q hq j hj => hkeep j)
      ⟨fun _ => ⟨?_, fun d' => ?_⟩, fun hne => absurd rfl hne⟩⟩
    · dsimp only
      rw [update_self]
      exact hjrange.2
    · dsimp only
      rw [update_self, hjd d']
      refine (and_iff_left_of_imp fun hd' => ?_).symm
      rw [hd']
      exact hjrange.1.ne'

/-- **A round of `Unmap`** keeps the reverse map exact. -/
theorem ReverseInv.unmapPage (h : ReverseInv m ids) : ∃ ids', ReverseInv (m.unmapPage d) ids' := by
  cases hptr : m.compressedPhysicalPtr d with
  | zero =>
    refine ⟨ids, ?_⟩
    simp only [DeviceMemoryManager.unmapPage, hptr, ne_eq, not_true_eq_false, if_false, update_ptr_eq hptr]
    exact h
  | succ p =>
    by_cases hflag : m.compressedDeviceAddr p >>> multiFlagBits = 0
    · refine ⟨ids, ?_⟩
      simp only [DeviceMemoryManager.unmapPage, hptr, Nat.add_sub_cancel, hflag, if_true,
        if_pos (Nat.succ_ne_zero p)]
      exact h.unmapOnly hptr hflag
    · exact h.unmapOneOf hptr hflag

/-! ## 5. Runs -/

theorem mapPage_ptr {ptr : Option Nat} {d' : Nat} (h : d' ≠ d) :
    (m.mapPage d ptr).compressedPhysicalPtr d' = m.compressedPhysicalPtr d' := by
  unfold DeviceMemoryManager.mapPage
  cases ptr with
  | none => exact update_of_ne h _ _
  | some phys =>
    dsimp only
    split
    · exact update_of_ne h _ _
    · split <;> exact update_of_ne h _ _

theorem mapPages_ptr {pages : Nat → Option Nat} (n : Nat) {d' : Nat} (h : ∀ i < n, d' ≠ start + i) :
    (m.mapPages start pages n).compressedPhysicalPtr d' = m.compressedPhysicalPtr d' := by
  induction n with
  | zero => rfl
  | succ n ih =>
    rw [mapPages, mapPage_ptr (h n (Nat.lt_succ_self n))]
    exact ih fun i hi => h i (Nat.lt_succ_of_lt hi)

theorem ReverseInv.mapPages (h : ReverseInv m ids) {pages : Nat → Option Nat} (n : Nat)
    (hd : ∀ i < n, 0 < start + i ∧ start + i < 2 ^ 31)
    (hfree : ∀ i < n, m.compressedPhysicalPtr (start + i) = 0)
    (hpages : ∀ i < n, ∀ phys, pages i = some phys → phys < physicalPages) :
    ∃ ids', ReverseInv (m.mapPages start pages n) ids' := by
  induction n with
  | zero => exact ⟨ids, h⟩
  | succ n ih =>
    obtain ⟨ids', h'⟩ := ih (fun i hi => hd i (Nat.lt_succ_of_lt hi))
      (fun i hi => hfree i (Nat.lt_succ_of_lt hi)) fun i hi => hpages i (Nat.lt_succ_of_lt hi)
    have hlast := Nat.lt_succ_self n
    refine h'.mapPage (hd n hlast) ?_ (hpages n hlast)
    rw [mapPages_ptr n fun i hi => by omega]
    exact hfree n hlast

theorem ReverseInv.unmapPages (h : ReverseInv m ids) (n : Nat) :
    ∃ ids', ReverseInv (m.unmapPages start n) ids' := by
  induction n with
  | zero => exact ⟨ids, h⟩
  | succ n ih =>
    obtain ⟨ids', h'⟩ := ih
    exact h'.unmapPage

theorem ReverseInv.track (h : ReverseInv m ids) {tracker : Nat → Nat} :
    ReverseInv { m with continuityTracker := tracker } ids where
  chains := h.chains
  size_lt := h.size_lt
  range := h.range
  page p := ⟨(h.page p).single, (h.page p).multi⟩

theorem ReverseInv.run (h : ReverseInv m ids) {call : DeviceCall} (hcall : call.Allowed m) :
    ∃ ids', ReverseInv (call.run m) ids' := by
  cases call with
  | unmap address size => exact h.unmapPages (numPages size)
  | map address pages size track =>
    obtain ⟨ids', h'⟩ := h.mapPages (numPages size)
      (fun i hi => ⟨(hcall i hi).1, (hcall i hi).2.1⟩) (fun i hi => (hcall i hi).2.2.1)
      (fun i hi => (hcall i hi).2.2.2)
    refine ⟨ids', ?_⟩
    simp only [DeviceCall.run, DeviceMemoryManager.map]
    split
    · exact h'.track
    · exact h'

theorem reverseInv (h : DeviceCall.Reachable m) : ∃ ids, ReverseInv m ids := by
  induction h with
  | initial => exact ⟨_, ReverseInv.initial⟩
  | step _ hcall ih =>
    obtain ⟨ids, hinv⟩ := ih
    exact hinv.run hcall

/-! ## 6. Gathering -/

theorem ReverseInv.gather (h : ReverseInv m ids) : m.innerGatherDeviceAddresses p =
      if ids p = [] then [m.compressedDeviceAddr p]
      else chainValues m.multiDevAddress (ids p) := by
  unfold innerGatherDeviceAddresses
  dsimp only
  split
  · next hflag =>
    have hne : ids p ≠ [] := fun hnil => hflag ((h.page p).flag_iff.mpr hnil)
    obtain ⟨-, ⟨s, hhead, hbase⟩, -⟩ := (h.page p).multi hne
    have hlinked := h.chains.linked p
    rw [hhead] at hlinked
    rw [if_neg hne, hbase, mask_flag (h.start_lt hhead), gatherValues,
      gatherLoop_eq hlinked (Nat.le_succ_of_le h.chains.length_le)]
    rfl
  · next hflag => rw [if_pos ((h.page p).flag_iff.mp (not_not.mp hflag))]

/-- **The way back is exact.** In every state that mapping and unmapping lead to, what is gathered
    for a physical page is its device pages, each once, or a single 0; and its chain, where the word
    is flagged, ends, has no entry twice, and shares none with another page's chain or with the
    free entries. -/
theorem innerGatherDeviceAddresses_exact (h : DeviceCall.Reachable m) :
    (∀ p, (m.innerGatherDeviceAddresses p).Nodup ∧
      (∀ d, d ≠ 0 → (d ∈ m.innerGatherDeviceAddresses p ↔ m.compressedPhysicalPtr d = p + 1)) ∧
      (0 ∈ m.innerGatherDeviceAddresses p ↔ ∀ d, m.compressedPhysicalPtr d ≠ p + 1) ∧
      (0 ∈ m.innerGatherDeviceAddresses p → m.innerGatherDeviceAddresses p = [0])) ∧
    ∃ ids : Nat → List Nat, (∀ p, if m.compressedDeviceAddr p >>> multiFlagBits = 0 then ids p = [] else
        Linked (link m.multiDevAddress.storage) (some (m.compressedDeviceAddr p &&& multiMask)) (ids p)) ∧
      (∀ p, (ids p).Nodup) ∧ (∀ p q, p ≠ q → (ids p).Disjoint (ids q)) ∧
      ∀ p, (ids p).Disjoint m.multiDevAddress.freeEntries := by
  obtain ⟨ids, hinv⟩ := reverseInv h
  have hzero : m.compressedPhysicalPtr 0 = 0 := by
    by_contra h0
    exact absurd (hinv.range 0 h0).1 (Nat.lt_irrefl 0)
  refine ⟨fun p => ?_, ids, fun p => ?_, hinv.chains.nodup,
    fun p q hpq i hp hq => hpq (hinv.chains.disjoint p q i hp hq),
    fun p i hp hf => hinv.chains.freeUnused i hf p hp⟩
  · rw [hinv.gather]
    split
    · next hnil =>
      obtain ⟨-, hsingle⟩ := (hinv.page p).single hnil
      simp only [mem_singleton]
      refine ⟨nodup_singleton _, fun d hd => ?_, ?_, fun h0 => by rw [← h0]⟩
      · rw [hsingle d]
        exact (and_iff_left hd).symm
      · constructor
        · intro h0 d hd
          obtain ⟨rfl, hne⟩ := (hsingle d).mp hd
          exact hne h0.symm
        · intro hnone
          by_contra h0
          exact hnone _ ((hsingle _).mpr ⟨rfl, fun h' => h0 h'.symm⟩)
    · next hne =>
      obtain ⟨-, -, hnodup, hiff⟩ := (hinv.page p).multi hne
      have h0 : 0 ∉ chainValues m.multiDevAddress (ids p) := by
        rw [← hiff 0, hzero]
        exact (Nat.succ_ne_zero p).symm
      refine ⟨hnodup, fun d _ => (hiff d).symm, iff_of_false h0 fun hnone => ?_,
        fun h' => absurd h' h0⟩
      obtain ⟨i, hi⟩ := exists_mem_of_ne_nil _ hne
      exact hnone _ (hinv.value hi)
  · split
    · next hflag => exact (hinv.page p).flag_iff.mp hflag
    · next hflag =>
      have hne : ids p ≠ [] := fun hnil => hflag ((hinv.page p).flag_iff.mpr hnil)
      obtain ⟨-, ⟨s, hhead, hbase⟩, -⟩ := (hinv.page p).multi hne
      rw [hbase, mask_flag (hinv.start_lt hhead), ← hhead]
      exact hinv.chains.linked p

/-- One physical page under two device pages, gathered as both. -/
theorem innerGatherDeviceAddresses_exact_alias :
    (((DeviceCall.map 0x1000 (fun _ => some 5) 0x2000 true).run {}).innerGatherDeviceAddresses 5).Nodup ∧
      2 ∈ ((DeviceCall.map 0x1000 (fun _ => some 5) 0x2000 true).run {}).innerGatherDeviceAddresses
        5 := by
  have hreach := @DeviceCall.Reachable.step _ (.map 0x1000 (fun _ => some 5) 0x2000 true)
      .initial fun i hi => by
      have hi : i < 2 := hi
      refine ⟨?_, ?_, rfl, fun phys hphys => ?_⟩
      · exact Nat.lt_of_lt_of_le (by decide : 0 < 0x1000 >>> pageBits) (Nat.le_add_right _ _)
      · have : 0x1000 >>> pageBits = 1 := by decide
        omega
      · cases hphys
        decide
  exact ⟨((innerGatherDeviceAddresses_exact hreach).1 5).1,
    (((innerGatherDeviceAddresses_exact hreach).1 5).2.1 2 (by decide)).mpr (by decide)⟩

end Yuzu.Core.DeviceMemoryManager
