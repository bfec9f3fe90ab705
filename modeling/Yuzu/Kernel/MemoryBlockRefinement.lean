/-
  File:      Yuzu/Kernel/MemoryBlockRefinement.lean
  Subject:   KMemoryBlockManager as a map from pages to their properties.

  The purpose of the manager is a map: each page has six properties, and an update function
  rewrites those of the pages of a range. `UpdateCall.onPage` is that rule for one page; the block
  list is how the map is stored.

  * `checkState_iff` -- what `CheckState` says about a list that covers the space;
  * `UpdateCall.run_refines` -- every update function refines its rule, page by page, and leaves a
    list that `CheckState` accepts.
-/
import Yuzu.Kernel.MemoryBlockManager

namespace Yuzu.Kernel

open Option BitVec

/-! ## 1. The update functions as one -/

/-- A call of an update function, its range apart. -/
inductive UpdateCall where
  | update (state : KMemoryState) (perm : KMemoryPermission) (attr : KMemoryAttribute)
      (setDisableAttr clearDisableAttr : KMemoryBlockDisableMergeAttribute)
  | updateIfMatch (testState : KMemoryState) (testPerm : KMemoryPermission)
      (testAttr : KMemoryAttribute) (state : KMemoryState) (perm : KMemoryPermission)
      (attr : KMemoryAttribute)
      (setDisableAttr clearDisableAttr : KMemoryBlockDisableMergeAttribute)
  | updateLock (lockFunc : LockFunction) (perm : KMemoryPermission)
  | updateAttribute (mask attr : KMemoryAttribute)
  deriving DecidableEq, Repr

namespace UpdateCall

def run (c : UpdateCall) (m : KMemoryBlockManager) (address numPages : Nat) : Option KMemoryBlockManager :=
  match c with
  | update s p a set clear => m.update address numPages s p a set clear
  | updateIfMatch ts tp ta s p a set clear =>
    m.updateIfMatch address numPages ts tp ta s p a set clear
  | updateLock f p => m.updateLock address numPages f p
  | updateAttribute mask attr => m.updateAttribute address numPages mask attr

/-- What the call prescribes for one page of its range. -/
def onPage : UpdateCall → Page → Page
  | update s p a _ _, q => q.update s p a
  | updateIfMatch ts tp ta s p a _ _, q => if q.hasProperties ts tp ta then q.update s p a else q
  | updateLock f p, q => f.onPage p q
  | updateAttribute mask attr, q => q.updateAttribute mask attr

/-- The `ASSERT` on the attributes at the head of `Update` and `UpdateIfMatch`. -/
def attrOk : UpdateCall → Prop
  | update _ _ a _ _ | updateIfMatch _ _ _ _ _ a _ _ =>
    a &&& KMemoryAttribute.ignoreMask = KMemoryAttribute.none
  | updateLock _ _ | updateAttribute _ _ => True

instance : (c : UpdateCall) → Decidable c.attrOk
  | update _ _ _ _ _ | updateIfMatch _ _ _ _ _ _ _ _ => inferInstanceAs (Decidable (_ = _))
  | updateLock _ _ | updateAttribute _ _ => inferInstanceAs (Decidable True)

/-- The test under which the call passes a block over. -/
def skip : UpdateCall → KMemoryBlock → Bool
  | update s p a _ _, b => b.hasProperties s p a
  | updateIfMatch ts tp ta s p a _ _, b =>
    !(b.hasProperties ts tp ta && !b.hasProperties s p a)
  | updateLock _ _, _ => false
  | updateAttribute mask attr, b => b.attr &&& mask == attr

/-- The member called on the other blocks. -/
def member (c : UpdateCall) (address numPages : Nat) (b : KMemoryBlock) : Option KMemoryBlock :=
  match c with
  | update s p a set clear => b.update s p a (b.address == address) set clear
  | updateIfMatch _ _ _ s p a set clear => b.update s p a false set clear
  | updateLock f p => f.call p (b.address == address)
      (b.endAddress == address + numPages * PageSize) b
  | updateAttribute mask attr => b.updateAttribute mask attr

/-- The call up to coalescing: `none` where an `ASSERT` fails. -/
def blocks (c : UpdateCall) (m : KMemoryBlockManager) (address numPages : Nat) :
    Option KMemoryBlockManager := do
  assert c.attrOk
  m.updateBlocks address numPages c.skip (c.member address numPages)

/-- An attribute update that leaves the two attributes with a count alone, as the callers of
    `UpdateAttribute` ask for. -/
def KeepsCounted : UpdateCall → Prop
  | updateAttribute _ attr => attr &&& KMemoryAttribute.ignoreMask = KMemoryAttribute.none
  | _ => True

end UpdateCall

/-! ## 2. What `CheckState` says -/

namespace KMemoryBlockManager

/-- The block list covers the space, passes `CheckState`, and its first block, whose counts
    `CheckState` does not look at, has them too. -/
structure WellFormed (m : KMemoryBlockManager) : Prop where
  aligned : m.startAddress % PageSize = 0
  covers : Covers m.startAddress m.endAddress m.blocks
  checked : m.checkState = true
  first : ∀ b ∈ m.blocks.head?, b.page.CountsOk

/-- The pages of a list of non-empty blocks are those of its blocks. -/
theorem forall_page_iff {P : Page → Prop} {z : Nat} : ∀ {bs : List KMemoryBlock} {a : Nat},
    Covers a z bs → ((∀ b ∈ bs, P b.page) ↔ ∀ p, ∀ q ∈ pageAt bs p, P q)
  | [], _, _ => by simp
  | b :: bs, a, ⟨h0, h1, h2⟩ => by
    have ih := forall_page_iff (P := P) h2
    rw [List.forall_mem_cons, ih]
    constructor
    · rintro ⟨hb, hbs⟩ p q hq
      rw [pageAt_cons] at hq
      split at hq
      · cases hq
        exact hb
      · exact hbs p q hq
    · intro h
      refine ⟨h b.address b.page ?_, fun p q hq => h p q ?_⟩
      · rw [pageAt_cons, if_pos ⟨Nat.le_refl _, by omega⟩]
        rfl
      · rw [pageAt_cons, if_neg fun hp => ?_]
        · exact hq
        · rw [Covers.pageAt_none h2 (.inl hp.2)] at hq
          cases hq

theorem noMerge_singleton {a z : Nat} {b : KMemoryBlock} (h : Covers a z [b]) : NoMerge a [b] := by
  intro j hj hs
  have := h.1
  rcases startsAt_cons.mp hs with hs | hs
  · omega
  · exact (starts_nil.mp hs).elim

theorem noMerge_cons {a z : Nat} {b c : KMemoryBlock} {bs : List KMemoryBlock}
    (h : Covers a z (b :: c :: bs)) :
    NoMerge a (b :: c :: bs) ↔ b.canMergeWith c = false ∧ NoMerge b.endAddress (c :: bs) := by
  obtain ⟨rfl, hb, hc0, hc1, hbs⟩ := h
  rw [← Bool.not_eq_true, ← Coalesced.mergeableAt_head bs hb hc0 (by omega)]
  constructor
  · intro h
    refine ⟨h _ (by omega) (startsAt_cons.mpr (.inr (startsAt_cons.mpr (.inl rfl)))), ?_⟩
    intro j hj hs hm
    exact h j (by omega) (startsAt_cons.mpr (.inr hs)) ((Coalesced.mergeableAt_cons hb hj).mpr hm)
  · rintro ⟨h1, h2⟩ j hj hs
    rcases startsAt_cons.mp hs with hs | hs
    · omega
    · have hcov : Covers b.endAddress z (c :: bs) := ⟨hc0, hc1, hbs⟩
      have hbd := hcov.starts_bounds hs
      by_cases hj' : j = c.address
      · rw [hj']
        exact h1
      · rw [Coalesced.mergeableAt_cons hb (by omega)]
        exact h2 j (by omega) hs

/-- **What `CheckState` and the counts of the first block say**: no mergeable neighbours, and the
    counts of every block. -/
theorem checkState_go_iff {z : Nat} : ∀ (bs : List KMemoryBlock) {a : Nat}, Covers a z bs →
    ((checkState.go bs = true ∧ ∀ b ∈ bs.head?, b.page.CountsOk) ↔ NoMerge a bs ∧ ∀ b ∈ bs, b.page.CountsOk)
  | [], a, _ => by simp [checkState.go, NoMerge]
  | [b], a, h => by simp [checkState.go, noMerge_singleton h]
  | b :: c :: bs, a, h => by
    have ih := checkState_go_iff (c :: bs) h.2.2
    have hbc : b.endAddress = c.address := h.2.2.1.symm
    rw [noMerge_cons h]
    simp only [checkState.go, checkPair, Bool.and_eq_true, Bool.not_eq_true',
      decide_eq_true_eq, beq_iff_eq, List.head?_cons, mem_some_iff, forall_eq',
      List.forall_mem_cons] at ih ⊢
    tauto

theorem noMerge_of_go {z : Nat} : ∀ {bs : List KMemoryBlock} {a : Nat}, Covers a z bs →
    checkState.go bs = true → NoMerge a bs
  | [], _, _, _ => by simp [NoMerge]
  | [_], _, h, _ => noMerge_singleton h
  | b :: c :: bs, a, h, hg => by
    simp only [checkState.go, checkPair, Bool.and_eq_true, Bool.not_eq_true'] at hg
    exact (noMerge_cons h).mpr ⟨hg.1.1.1, noMerge_of_go h.2.2 hg.2⟩

theorem wellFormed_iff {m : KMemoryBlockManager} : m.WellFormed ↔
    m.startAddress % PageSize = 0 ∧ Covers m.startAddress m.endAddress m.blocks ∧
      NoMerge m.startAddress m.blocks ∧ ∀ p, ∀ q ∈ pageAt m.blocks p, q.CountsOk := by
  constructor
  · rintro ⟨h1, h2, h3, h4⟩
    obtain ⟨hno, hok⟩ := (checkState_go_iff _ h2).mp ⟨h3, h4⟩
    exact ⟨h1, h2, hno, (forall_page_iff h2).mp hok⟩
  · rintro ⟨h1, h2, hno, hok⟩
    obtain ⟨h3, h4⟩ := (checkState_go_iff _ h2).mpr ⟨hno, (forall_page_iff h2).mpr hok⟩
    exact ⟨h1, h2, h3, h4⟩

theorem initializeSpace_wellFormed {st nd : Nat} {m : KMemoryBlockManager} (hlt : st < nd)
    (h : initializeSpace st nd = some m) : m.WellFormed := by
  simp only [initializeSpace, assert_bind_eq_some, pure_def, Option.some.injEq] at h
  obtain ⟨hst, hnd, rfl⟩ := h
  simp only [PageSize] at hst hnd
  refine ⟨hst, ⟨rfl, ?_, ?_⟩, decide_eq_true ?_, fun b hb => ?_⟩
  · simp only [KMemoryBlock.endAddress_eq, PageSize]
    omega
  · simp only [KMemoryBlock.endAddress_eq, tiles_nil, PageSize]
    omega
  · dsimp only [KMemoryBlock.page]
    decide
  · cases hb
    dsimp only [KMemoryBlock.page]
    decide

end KMemoryBlockManager

/-! ## 3. The rule of each call keeps the counts -/

section Bits

variable {x a m n : KMemoryAttribute}

theorem attr_update_and (h : a &&& m = 0#8) : (a ||| (x &&& m)) &&& m = x &&& m := by
  rw [BitVec.and_or_distrib_right, h, BitVec.zero_or, BitVec.and_assoc, BitVec.and_self]

theorem attr_update_of_or_eq (h : a &&& m = 0#8) (hx : x ||| m = a ||| m) : a ||| (x &&& m) = x := by
  ext i hi
  have h1 := congrArg (·.getLsbD i) h
  have h2 := congrArg (·.getLsbD i) hx
  simp only [getLsbD_eq_getElem hi, getElem_or, getElem_and] at h1 h2 ⊢
  cases hm : m[i] <;> simp_all

theorem attr_mask_and (h : m &&& n = 0#8) (ha : a &&& n = 0#8) : ((x &&& ~~~m) ||| a) &&& n = x &&& n := by
  ext i hi
  have h1 := congrArg (·.getLsbD i) h
  have h2 := congrArg (·.getLsbD i) ha
  simp only [getLsbD_eq_getElem hi, getElem_or, getElem_and, getElem_not] at h1 h2 ⊢
  cases hm : m[i] <;> cases hn : n[i] <;> simp_all

theorem attr_mask_of_and_eq (h : x &&& m = a) : (x &&& ~~~m) ||| a = x := by
  rw [← h, BitVec.or_comm]
  ext i hi
  simp only [BitVec.getElem_or, BitVec.getElem_and, BitVec.getElem_not]
  cases x[i] <;> cases m[i] <;> rfl

end Bits

open KMemoryAttribute (ipcLocked deviceShared ignoreMask)

theorem and_ignoreMask (x : KMemoryAttribute) :
    (x &&& ignoreMask = 0#8 ↔ x &&& ipcLocked = 0#8 ∧ x &&& deviceShared = 0#8) ∧
      x &&& ignoreMask &&& ipcLocked = x &&& ipcLocked ∧
      x &&& ignoreMask &&& deviceShared = x &&& deviceShared := by
  revert x
  decide

theorem Page.CountsOk.of_attr {q q' : Page} (h : q.CountsOk)
    (ha : q'.attr &&& ignoreMask = q.attr &&& ignoreMask)
    (hi : q'.ipcLockCount = q.ipcLockCount) (hd : q'.deviceUseCount = q.deviceUseCount) :
    q'.CountsOk := by
  obtain ⟨-, i1, d1⟩ := and_ignoreMask q.attr
  obtain ⟨-, i2, d2⟩ := and_ignoreMask q'.attr
  rw [ha] at i2 d2
  unfold Page.CountsOk at *
  rw [← i2, ← d2, i1, d1, hi, hd]
  exact h

theorem Page.update_countsOk {q : Page} {s : KMemoryState} {p : KMemoryPermission}
    {a : KMemoryAttribute} (ha : a &&& ignoreMask = 0#8) (h : q.CountsOk) :
    (q.update s p a).CountsOk :=
  h.of_attr (attr_update_and ha) rfl rfl

theorem Page.updateAttribute_countsOk {q : Page} {mask a : KMemoryAttribute}
    (hm : mask &&& ignoreMask = 0#8) (ha : a &&& ignoreMask = 0#8) (h : q.CountsOk) :
    (q.updateAttribute mask a).CountsOk :=
  h.of_attr (attr_mask_and hm ha) rfl rfl

theorem Page.update_of_hasProperties {q : Page} {s : KMemoryState} {p : KMemoryPermission}
    {a : KMemoryAttribute} (ha : a &&& ignoreMask = 0#8) (h : q.hasProperties s p a = true) :
    q.update s p a = q := by
  simp only [Page.hasProperties, Bool.and_eq_true, beq_iff_eq] at h
  obtain ⟨⟨rfl, rfl⟩, h⟩ := h
  simp only [Page.update, attr_update_of_or_eq ha h]

theorem Page.updateAttribute_of_and_eq {q : Page} {mask a : KMemoryAttribute}
    (h : q.attr &&& mask = a) : q.updateAttribute mask a = q := by
  simp only [Page.updateAttribute, attr_mask_of_and_eq h]

/-- A lock function that returns keeps the counts. -/
theorem KMemoryBlock.call_countsOk {f : LockFunction} {perm : KMemoryPermission}
    {left right : Bool} {b c : KMemoryBlock} (h : f.call perm left right b = some c)
    (hb : b.page.CountsOk) : (f.onPage perm b.page).CountsOk := by
  have hbits : ∀ x : KMemoryAttribute, (x ||| deviceShared) &&& ipcLocked = x &&& ipcLocked ∧
      (x ||| ipcLocked) &&& deviceShared = x &&& deviceShared ∧
      x &&& ~~~deviceShared &&& ipcLocked = x &&& ipcLocked ∧
      x &&& ~~~deviceShared &&& deviceShared = KMemoryAttribute.none ∧
      x &&& ~~~ipcLocked &&& deviceShared = x &&& deviceShared ∧
      x &&& ~~~ipcLocked &&& ipcLocked = KMemoryAttribute.none := by decide
  obtain ⟨e1, e2, e3, e4, e5, e6⟩ := hbits b.attr
  have hsub : ∀ x : BitVec 16, x ≠ 1 → x - 1 ≠ 0 := fun x hx h => hx (by
    rw [← BitVec.sub_add_cancel x 1, h]
    rfl)
  obtain ⟨h1, h2⟩ := hb
  cases f with
  | shareToDevice =>
    simp only [LockFunction.call, shareToDevice, assert_bind_eq_some] at h
    exact ⟨fun hi => h1 (e1 ▸ hi), fun _ => h.2.1⟩
  | unshareToDevice | unshareToDeviceRight =>
    refine ⟨fun hi => h1 ?_, fun hd => ?_⟩
    · dsimp only [LockFunction.onPage, KMemoryBlock.page] at hi ⊢
      split at hi
      · exact e3 ▸ hi
      · exact hi
    · dsimp only [LockFunction.onPage, KMemoryBlock.page] at hd ⊢
      split at hd
      · exact absurd e4 hd
      · rename_i hne
        exact hsub _ hne
  | lockForIpc =>
    simp only [LockFunction.call, lockForIpc, assert_bind_eq_some] at h
    exact ⟨fun _ => h.2.1, fun hd => h2 (e2 ▸ hd)⟩
  | unlockForIpc =>
    refine ⟨fun hi => ?_, fun hd => h2 ?_⟩
    · dsimp only [LockFunction.onPage, KMemoryBlock.page] at hi ⊢
      split at hi
      · exact absurd e6 hi
      · rename_i hne
        exact hsub _ hne
    · dsimp only [LockFunction.onPage, KMemoryBlock.page] at hd ⊢
      split at hd
      · exact e5 ▸ hd
      · exact hd
  | updateDeviceDisableMergeStateForShareLeft | updateDeviceDisableMergeStateForShareRight
  | updateDeviceDisableMergeStateForShare | updateDeviceDisableMergeStateForUnshareLeft
  | updateDeviceDisableMergeStateForUnshareRight
  | updateDeviceDisableMergeStateForUnshare => exact ⟨h1, h2⟩

namespace UpdateCall

variable {c : UpdateCall}

theorem run_eq (c : UpdateCall) (m : KMemoryBlockManager) (address numPages : Nat) :
    c.run m address numPages =
      (c.blocks m address numPages).bind fun m' => m'.coalesceForUpdate address numPages := by
  have hbind : ∀ {α β γ : Type} (x : Option α) (f : α → Option β) (g : β → Option γ),
      (x >>= f) >>= g = x >>= fun a => f a >>= g := fun x f g => by cases x <;> rfl
  cases c with
  | update s p a set clear => exact (hbind _ _ _).symm
  | updateIfMatch ts tp ta s p a set clear => exact (hbind _ _ _).symm
  | updateLock f p => rfl
  | updateAttribute mask attr => rfl

variable {b d : KMemoryBlock}

theorem skip_page (h : b.page = d.page) : c.skip b = c.skip d := by
  cases c with
  | update s p a set clear => exact congrArg (Page.hasProperties · s p a) h
  | updateIfMatch ts tp ta s p a set clear =>
    exact congrArg (fun q : Page => !(q.hasProperties ts tp ta && !q.hasProperties s p a)) h
  | updateLock f p => rfl
  | updateAttribute mask attr => exact congrArg (fun q : Page => q.attr &&& mask == attr) h

theorem onPage_of_skip {b : KMemoryBlock} (ha : c.attrOk) (h : c.skip b = true) :
    c.onPage b.page = b.page := by
  cases c with
  | update s p a set clear => exact Page.update_of_hasProperties ha h
  | updateIfMatch ts tp ta s p a set clear =>
    simp only [skip, Bool.not_eq_true', Bool.and_eq_false_iff, Bool.not_eq_false'] at h
    rcases h with h | h
    · exact if_neg (Bool.not_eq_true _ ▸ h)
    · have e := Page.update_of_hasProperties (q := b.page) ha h
      simp only [onPage, e, ite_self]
  | updateLock f p => cases h
  | updateAttribute mask attr => exact Page.updateAttribute_of_and_eq (beq_iff_eq.mp h)

variable {address numPages : Nat}

theorem member_image (hs : c.skip b = false)
    (h : c.member address numPages b = some d) : KMemoryBlock.IsImage c.onPage b d := by
  cases c with
  | update s p a set clear => exact KMemoryBlock.update_image h
  | updateIfMatch ts tp ta s p a set clear =>
    simp only [skip, Bool.not_eq_false', Bool.and_eq_true] at hs
    have himg := KMemoryBlock.update_image h
    refine ⟨himg.1, himg.2.1, himg.2.2.trans ?_⟩
    exact (if_pos (c := b.page.hasProperties ts tp ta = true) hs.1).symm
  | updateLock f p => exact KMemoryBlock.call_image h
  | updateAttribute mask attr => exact KMemoryBlock.updateAttribute_image h

theorem member_countsOk (ha : c.attrOk)
    (hk : c.KeepsCounted) (h : c.member address numPages b = some d) (hb : b.page.CountsOk) :
    (c.onPage b.page).CountsOk := by
  cases c with
  | update s p a set clear => exact Page.update_countsOk ha hb
  | updateIfMatch ts tp ta s p a set clear =>
    dsimp only [onPage]
    split
    · exact Page.update_countsOk ha hb
    · exact hb
  | updateLock f p => exact KMemoryBlock.call_countsOk h hb
  | updateAttribute mask attr =>
    simp only [member, KMemoryBlock.updateAttribute, assert_bind_eq_some] at h
    exact Page.updateAttribute_countsOk ((and_ignoreMask mask).1.mpr ⟨h.1, h.2.1⟩) hk hb

end UpdateCall

/-! ## 4. The refinement -/

/-- There is a block for the coalescing pass to step back to: the range begins with the space, or
    the first block ends before it, or it is cut there. -/
def KMemoryBlockManager.CanStepBack (m : KMemoryBlockManager) (c : UpdateCall)
    (address numPages : Nat) : Prop :=
  address < m.endAddress ∧ (address = m.startAddress ∨
    ∀ b ∈ m.blocks.head?, b.endAddress ≤ address ∨ (numPages ≠ 0 ∧ c.skip b = false))

/-- After the loop the first block ends at or before the address. -/
theorem KMemoryBlockManager.updateBlocks_head {m mid : KMemoryBlockManager}
    {skip : KMemoryBlock → Bool} {call : KMemoryBlock → Option KMemoryBlock}
    (ha : m.startAddress % 4096 = 0)
    (hc : Covers m.startAddress m.endAddress m.blocks)
    (h1 : m.startAddress < address) (h2 : address < m.endAddress)
    (hfirst : ∀ b ∈ m.blocks.head?, b.endAddress ≤ address ∨ (numPages ≠ 0 ∧ skip b = false))
    (h : m.updateBlocks address numPages skip call = some mid) :
    ∀ b ∈ mid.blocks.head?, b.endAddress ≤ address := by
  simp only [updateBlocks, assert_bind_eq_some] at h
  obtain ⟨-, h⟩ := h
  simp only [bind_eq_bind, bind_eq_some_iff, pure_def, Option.some.injEq] at h
  obtain ⟨tail, ht, rfl⟩ := h
  obtain ⟨xs, b, ys, hbs, hfind, hxs, hb1, hb2, hb3, hys⟩ :=
    findIterator_spec hc (Nat.le_of_lt h1) h2
  rw [hfind, hbs, List.drop_left] at ht
  dsimp only
  rw [hfind, hbs, List.take_left]
  rw [hbs] at hfirst
  cases xs with
  | cons x xs =>
    intro d hd
    cases hd
    exact Nat.le_trans hxs.2.2.le hb1
  | nil =>
    obtain ⟨hn, hsk⟩ : numPages ≠ 0 ∧ skip b = false := by
      rcases hfirst b rfl with h | h
      · omega
      · exact h
    have hba : m.startAddress = b.address := hxs
    simp only [updateLoop, if_neg hn, hsk, Bool.false_eq_true, if_false, bind_eq_bind,
      bind_eq_some_iff, pure_def, Option.some.injEq, Prod.exists] at ht
    obtain ⟨before, it, hbef, -, -, -, d, -, tail', -, rfl⟩ := ht
    rcases splitBefore_spec (by omega) hbef with ⟨e, -, -⟩ | ⟨-, l, rfl, hs⟩
    · omega
    · intro d hd
      cases hd
      exact Nat.le_of_eq hs.end_left

/-- **Every update function refines its rule.** From a well-formed list, on an aligned range inside
    the space, a call whose `ASSERT`s hold returns a well-formed list of the same space in which
    exactly the pages of the range have changed, each by the rule. -/
theorem UpdateCall.run_refines (c : UpdateCall) (m : KMemoryBlockManager) (address numPages : Nat)
    (hm : m.WellFormed) (h₁ : m.startAddress ≤ address)
    (h₂ : address + numPages * PageSize ≤ m.endAddress) (hk : c.KeepsCounted)
    (hassert : (c.blocks m address numPages).isSome = true)
    (hback : m.CanStepBack c address numPages) :
    ∃ m', c.run m address numPages = some m' ∧ m'.startAddress = m.startAddress ∧
      m'.endAddress = m.endAddress ∧ m'.WellFormed ∧
      ∀ p, pageAt m'.blocks p =
        if address ≤ p ∧ p < address + numPages * PageSize then (pageAt m.blocks p).map c.onPage
        else pageAt m.blocks p := by
  obtain ⟨hal, hc, hno, hok⟩ := KMemoryBlockManager.wellFormed_iff.mp hm
  obtain ⟨mid, hmid⟩ := isSome_iff_exists.mp hassert
  have hb := hmid
  simp only [blocks, assert_bind_eq_some] at hb
  obtain ⟨ha, hb⟩ := hb
  -- the loop, read page by page; nothing is asked of the edges
  obtain ⟨hs, he, hf⟩ := KMemoryBlockManager.updateBlocks_spec (g := c.onPage)
    (K := fun q => q.CountsOk → (c.onPage q).CountsOk) (L := fun _ _ _ _ => True)
    (R := fun _ _ _ => True)
    (fun b hsk => ⟨onPage_of_skip ha hsk, fun h => (onPage_of_skip ha hsk).symm ▸ h,
      fun _ _ _ _ => trivial, fun _ _ _ => trivial⟩)
    (fun b d h => skip_page h)
    (fun b d hsk hcall => ⟨member_image hsk hcall, member_countsOk ha hk hcall, trivial, trivial⟩)
    (fun _ _ _ => trivial) (fun _ _ => trivial) hal hc h₁ h₂ hb
  -- coalescing returns
  have hfirst : address = mid.startAddress ∨ ∀ b ∈ mid.blocks.head?, b.endAddress ≤ address := by
    rcases hback.2 with h | h
    · exact .inl (h.trans hs.symm)
    · by_cases hst : address = m.startAddress
      · exact .inl (hst.trans hs.symm)
      · exact .inr (KMemoryBlockManager.updateBlocks_head hal hc (by omega) hback.1 h hb)
  have hcov : Covers mid.startAddress mid.endAddress mid.blocks := by
    rw [hs, he]
    exact hf.covers
  obtain ⟨m', hm'⟩ := isSome_iff_exists.mp
    (KMemoryBlockManager.coalesceForUpdate_isSome numPages hcov (by omega)
      (by rw [he]; exact hback.1) hfirst)
  obtain ⟨hs', he', hno', hco⟩ := KMemoryBlockManager.coalesce_updated hno h₁ h₂ hs he hf hm'
  have hpage : ∀ p, pageAt m'.blocks p =
      if address ≤ p ∧ p < address + numPages * PageSize then (pageAt m.blocks p).map c.onPage
      else pageAt m.blocks p := fun p => by
    rw [hco.page]
    split
    · rename_i hp
      exact (hf.page_in p hp.1 hp.2).1
    · exact hf.page_out p (by simp only [PageSize] at *; omega)
  refine ⟨m', by rw [run_eq, hmid]; exact hm', hs', he', ?_, hpage⟩
  rw [KMemoryBlockManager.wellFormed_iff, hs', he']
  refine ⟨hal, hco.covers, hno', fun p q hq => ?_⟩
  rw [hpage] at hq
  split at hq
  · rename_i hp
    obtain ⟨q₀, hq₀, rfl⟩ := mem_map.mp hq
    exact (hf.page_in p hp.1 hp.2).2 q₀ hq₀ (hok p q₀ hq₀)
  · exact hok p q hq

theorem UpdateCall.run_refines_middle : ∃ m m', KMemoryBlockManager.initializeSpace 0 0x8000 = some m ∧
      (update 5 3 0 0 0).run m 0x2000 2 = some m' ∧ m'.WellFormed ∧ m'.blocks.length = 3 ∧
      pageAt m'.blocks 0x2000 = some ⟨5, 3, 0, 0, 0, 0⟩ := by
  obtain ⟨m, hm⟩ : ∃ m, KMemoryBlockManager.initializeSpace 0 0x8000 = some m := ⟨_, rfl⟩
  have hw := KMemoryBlockManager.initializeSpace_wellFormed (by decide) hm
  cases hm
  obtain ⟨m', hr, -, -, hw', hp⟩ := run_refines (update 5 3 0 0 0) _ 0x2000 2 hw (by decide)
    (by decide) trivial (by decide) ⟨by decide, .inr fun b hb => .inr ⟨by decide, by
      cases hb
      decide⟩⟩
  refine ⟨_, m', rfl, hr, hw', ?_, by rw [hp]; decide⟩
  cases hr
  decide

/-- A list that `CheckState` accepts may be left by an aligned call inside the space, all of whose
    `ASSERT`s hold, in a state that it refuses: when `UpdateAttribute` is asked for `IpcLocked`, and
    when the first block, whose counts are not looked at, is cut. And when the first block is passed
    over, coalescing steps back from it. -/
theorem UpdateCall.run_not_checked :
    (∃ m, KMemoryBlockManager.initializeSpace 0 0x8000 = some m ∧ m.checkState = true ∧
      ((updateAttribute 0 KMemoryAttribute.ipcLocked).blocks m 0x2000 2).isSome = true ∧
      ((updateAttribute 0 KMemoryAttribute.ipcLocked).run m 0x2000 2).map (·.checkState) = some false) ∧
    (∃ m : KMemoryBlockManager, m = ⟨0, 0x8000,
        [⟨0, 0, 0, 4, 5, 0, 0, 0, 3, 0, KMemoryAttribute.ipcLocked, 0⟩,
          ⟨0, 0, 0x4000, 4, 0, 0, 0, 0, 0, 0, 0, 0⟩]⟩ ∧ m.checkState = true ∧
      ((updateAttribute KMemoryAttribute.uncached KMemoryAttribute.uncached).blocks
        m 0x1000 1).isSome = true ∧
      ((updateAttribute KMemoryAttribute.uncached KMemoryAttribute.uncached).run
        m 0x1000 1).map (·.checkState) = some false) ∧
    ∃ m, KMemoryBlockManager.initializeSpace 0 0x8000 = some m ∧ m.checkState = true ∧
      ((update 0 0 0 0 0).blocks m 0x1000 1).isSome = true ∧
      (update 0 0 0 0 0).run m 0x1000 1 = none :=
  ⟨⟨_, rfl, by decide, by decide, by decide⟩, ⟨_, rfl, by decide, by decide, by decide⟩,
    ⟨_, rfl, by decide, by decide, by decide⟩⟩

end Yuzu.Kernel
