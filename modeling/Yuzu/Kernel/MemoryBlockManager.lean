/-
  File:      Yuzu/Kernel/MemoryBlockManager.lean
  Subject:   KMemoryBlockManager (k_memory_block_manager.cpp): the ordered blocks of an address
             space and the four functions that update a range of it.

  The intrusive tree is the list of its blocks in address order; an iterator is the list from it
  on. `Update`, `UpdateIfMatch`, `UpdateLock` and `UpdateAttribute` run one loop (`updateLoop`)
  with their own test for blocks to pass over and their own member call, and end in
  `CoalesceForUpdate`. Blocks come from an allocator that never runs dry.

  A list is read position by position (`pageAt`, `leftAt`, `rightAt`, `StartsAt`):
  * `UpdateFrame` says what the loop leaves alone and what it changes; `updateLoop_frame` proves
    it by induction over the loop, one lemma for each thing an iteration can do;
  * `coalesceLoop_spec`, `coalesceForUpdate_spec` -- coalescing changes no reading and leaves no
    mergeable neighbours.
-/
import Yuzu.Kernel.MemoryBlock

namespace Yuzu.Kernel

open List Option

/-! ## 1. The manager -/

structure KMemoryBlockManager where
  startAddress : Nat
  endAddress : Nat
  blocks : List KMemoryBlock
  deriving DecidableEq, Repr

namespace KMemoryBlockManager

/-- `Initialize`: one free block encapsulates the address space. -/
def initializeSpace (st nd : Nat) : Option KMemoryBlockManager := do
  assert (st % PageSize = 0)
  assert (nd % PageSize = 0)
  return ⟨st, nd, [{
    address := st
    numPages := (nd - st) / PageSize
    memoryState := KMemoryState.free
    permission := KMemoryPermission.none
    attr := KMemoryAttribute.none }]⟩

/-- `m_memory_block_tree.find`: the position of the block whose pages contain the address, or
    past the end. -/
def findIterator (blocks : List KMemoryBlock) (address : Nat) : Nat :=
  blocks.findIdx fun b => b.address ≤ address && address < b.endAddress

/-- The coalescing loop from the iterator on: `prev` has just been stepped over. -/
def coalesceLoop (stop : Nat) : KMemoryBlock → List KMemoryBlock → Option (List KMemoryBlock)
  | prev, [] => some [prev]
  | prev, it :: rest =>
    if prev.canMergeWith it then do
      let merged ← prev.add it
      if stop < merged.endAddress then some (merged :: rest) else coalesceLoop stop merged rest
    else if stop < it.endAddress then some (prev :: it :: rest)
    else do return prev :: (← coalesceLoop stop it rest)

/-- `it--`: the tree's iterators are node pointers, so one at the first block or at the end has
    no predecessor to step to. -/
def stepBack (blocks : List KMemoryBlock) (it : Nat) : Option Nat :=
  if 0 < it ∧ it < blocks.length then some (it - 1) else none

/-- Where coalescing begins: at the block of the address, or one before it. -/
def coalesceStart (m : KMemoryBlockManager) (address : Nat) : Option Nat :=
  let it := findIterator m.blocks address
  if address ≠ m.startAddress then stepBack m.blocks it else some it

def coalesceForUpdate (m : KMemoryBlockManager) (address numPages : Nat) : Option KMemoryBlockManager := do
  let it ← m.coalesceStart address
  match m.blocks.drop it with
  | [] => none
  | prev :: rest => do
    let tail ← coalesceLoop (address + numPages * PageSize) prev rest
    return { m with blocks := m.blocks.take it ++ tail }

/-- Create a new block before, if the iterator's block begins before the current address. -/
def splitBefore (b : KMemoryBlock) (curAddress : Nat) : Option (List KMemoryBlock × KMemoryBlock) :=
  if b.address ≠ curAddress then do
    let (new, b) ← b.split curAddress
    return ([new], b)
  else some ([], b)

/-- Create a new block after, if the iterator's block is larger than what remains. -/
def splitAfter (it : KMemoryBlock) (remainingSize : Nat) : Option (KMemoryBlock × List KMemoryBlock) :=
  if it.size > remainingSize then do
    let (new, it) ← it.split (it.address + remainingSize)
    return (new, [it])
  else some (it, [])

/-- The loop of the update functions: `skip` is the test under which a block is passed over,
    `call` the member called on the others. -/
def updateLoop (skip : KMemoryBlock → Bool) (call : KMemoryBlock → Option KMemoryBlock) :
    Nat → Nat → Nat → List KMemoryBlock → Option (List KMemoryBlock)
  | 0, _, remainingPages, it => if remainingPages = 0 then some it else none
  | fuel + 1, curAddress, remainingPages, it =>
    if remainingPages = 0 then some it
    else match it with
      | [] => none
      | b :: rest =>
        let remainingSize := remainingPages * PageSize
        if skip b then
          if curAddress + remainingSize < b.endAddress then do
            return b :: (← updateLoop skip call fuel (curAddress + remainingSize) 0 rest)
          else do
            let remaining := (curAddress + remainingSize - b.endAddress) / PageSize
            return b :: (← updateLoop skip call fuel b.endAddress remaining rest)
        else do
          let (before, it) ← splitBefore b curAddress
          let (it, after) ← splitAfter it remainingSize
          let it' ← call it
          let tail ← updateLoop skip call fuel (it.address + it.size)
            (remainingPages - it.numPages) (after ++ rest)
          return before ++ it' :: tail

/-- The update functions up to coalescing: assert the alignment and run the loop from the block
    of the address on. -/
def updateBlocks (m : KMemoryBlockManager) (address numPages : Nat) (skip : KMemoryBlock → Bool)
    (call : KMemoryBlock → Option KMemoryBlock) : Option KMemoryBlockManager := do
  assert (address % PageSize = 0)
  let i := findIterator m.blocks address
  let it := m.blocks.drop i
  let tail ← updateLoop skip call (it.length + 1) address numPages it
  return { m with blocks := m.blocks.take i ++ tail }

/-- The body the four update functions share. -/
def updateRange (m : KMemoryBlockManager) (address numPages : Nat) (skip : KMemoryBlock → Bool)
    (call : KMemoryBlock → Option KMemoryBlock) : Option KMemoryBlockManager := do
  (← m.updateBlocks address numPages skip call).coalesceForUpdate address numPages

def update (m : KMemoryBlockManager) (address numPages : Nat) (state : KMemoryState)
    (perm : KMemoryPermission) (attr : KMemoryAttribute)
    (setDisableAttr clearDisableAttr : KMemoryBlockDisableMergeAttribute) :
    Option KMemoryBlockManager := do
  assert (attr &&& KMemoryAttribute.ignoreMask = KMemoryAttribute.none)
  m.updateRange address numPages (fun b => b.hasProperties state perm attr) fun b =>
    b.update state perm attr (b.address == address) setDisableAttr clearDisableAttr

def updateIfMatch (m : KMemoryBlockManager) (address numPages : Nat) (testState : KMemoryState)
    (testPerm : KMemoryPermission) (testAttr : KMemoryAttribute) (state : KMemoryState)
    (perm : KMemoryPermission) (attr : KMemoryAttribute)
    (setDisableAttr clearDisableAttr : KMemoryBlockDisableMergeAttribute) :
    Option KMemoryBlockManager := do
  assert (attr &&& KMemoryAttribute.ignoreMask = KMemoryAttribute.none)
  m.updateRange address numPages
    (fun b => !(b.hasProperties testState testPerm testAttr && !b.hasProperties state perm attr))
    fun b => b.update state perm attr false setDisableAttr clearDisableAttr

def updateLock (m : KMemoryBlockManager) (address numPages : Nat) (lockFunc : LockFunction)
    (perm : KMemoryPermission) : Option KMemoryBlockManager :=
  m.updateRange address numPages (fun _ => false) fun b =>
    lockFunc.call perm (b.address == address) (b.endAddress == address + numPages * PageSize) b

def updateAttribute (m : KMemoryBlockManager) (address numPages : Nat)
    (mask attr : KMemoryAttribute) : Option KMemoryBlockManager :=
  m.updateRange address numPages (fun b => b.attr &&& mask == attr) fun b =>
    b.updateAttribute mask attr

/-- What `CheckState` asks of a pair of neighbours: not mergeable, contiguous, and the counts of
    the second. -/
def checkPair (prev cur : KMemoryBlock) : Bool :=
  !prev.canMergeWith cur && prev.endAddress == cur.address && decide cur.page.CountsOk

/-- `CheckState`: the loop checks the counts of every block but the first, and the last block is
    checked once more after it. -/
def checkState (m : KMemoryBlockManager) : Bool :=
  go m.blocks
where
  go : List KMemoryBlock → Bool
    | [] => true
    | [last] => decide last.page.CountsOk
    | prev :: cur :: rest => checkPair prev cur && go (cur :: rest)

end KMemoryBlockManager

/-! ## 2. Reading a list of blocks -/

abbrev Covers (a z : Nat) (bs : List KMemoryBlock) : Prop :=
  Tiles KMemoryBlock.address KMemoryBlock.endAddress a z bs

/-- The page at an address. -/
abbrev pageAt (bs : List KMemoryBlock) (p : Nat) : Option Page :=
  valueAt KMemoryBlock.address KMemoryBlock.endAddress KMemoryBlock.page bs p

/-- The left edge at an address. -/
abbrev leftAt (bs : List KMemoryBlock) (p : Nat) : LeftMark :=
  markAt KMemoryBlock.address KMemoryBlock.leftMark bs p

/-- The right edge at an address. -/
abbrev rightAt (bs : List KMemoryBlock) (p : Nat) : RightMark :=
  markAt KMemoryBlock.endAddress KMemoryBlock.rightMark bs p

/-- A block begins at an address. -/
abbrev StartsAt (bs : List KMemoryBlock) (p : Nat) : Prop := Starts KMemoryBlock.address bs p

section

variable {a z m p : Nat} {b : KMemoryBlock} {bs xs ys : List KMemoryBlock}

theorem pageAt_cons : pageAt (b :: bs) p =
    if b.address ≤ p ∧ p < b.endAddress then some b.page else pageAt bs p := rfl

theorem leftAt_cons : leftAt (b :: bs) p = if b.address = p then b.leftMark else leftAt bs p := rfl

theorem rightAt_cons : rightAt (b :: bs) p =
    if b.endAddress = p then b.rightMark else rightAt bs p := rfl

theorem startsAt_cons : StartsAt (b :: bs) p ↔ b.address = p ∨ StartsAt bs p := starts_cons

theorem Covers.leftAt_default (h : Covers a z bs) (hp : p < a ∨ z ≤ p) : leftAt bs p = default :=
  h.markLo_eq_default hp

theorem Covers.rightAt_default (h : Covers a z bs) (hp : p ≤ a ∨ z < p) : rightAt bs p = default :=
  h.markHi_eq_default hp

theorem Covers.pageAt_none (h : Covers a z bs) (hp : p < a ∨ z ≤ p) : pageAt bs p = none :=
  h.valueAt_eq_none hp

end

/-- What a run of the loop from `cur` to `stop` makes of the blocks `it`: the pages of the range
    satisfy `K` and are mapped by `g`, the edges in it are related by `L` and `R`, everything else
    reads as before, and blocks begin where they began except at the ends of the range. -/
structure UpdateFrame (g : Page → Page) (K : Page → Prop)
    (L : Nat → Option Page → LeftMark → LeftMark → Prop) (R : Nat → RightMark → RightMark → Prop)
    (a z cur stop : Nat) (it out : List KMemoryBlock) : Prop where
  covers : Covers a z out
  page_out : ∀ p, p < cur ∨ stop ≤ p → pageAt out p = pageAt it p
  page_in : ∀ p, cur ≤ p → p < stop → pageAt out p = (pageAt it p).map g ∧ ∀ q ∈ pageAt it p, K q
  left_out : ∀ p, p < cur ∨ stop ≤ p → leftAt out p = leftAt it p
  left_in : ∀ p, cur ≤ p → p < stop → L p (pageAt it p) (leftAt it p) (leftAt out p)
  right_out : ∀ p, p ≤ cur ∨ stop < p → rightAt out p = rightAt it p
  right_in : ∀ p, cur < p → p ≤ stop → R p (rightAt it p) (rightAt out p)
  starts : ∀ p, p < cur ∨ stop < p → (StartsAt out p ↔ StartsAt it p)

/-! ## 3. What an iteration of the loop does -/

namespace UpdateFrame

variable {g : Page → Page} {K : Page → Prop}
  {L : Nat → Option Page → LeftMark → LeftMark → Prop} {R : Nat → RightMark → RightMark → Prop}
  {a z cur stop : Nat} {b c l r : KMemoryBlock} {rest out : List KMemoryBlock}

theorem done (h : Covers a z out) : UpdateFrame g K L R a z cur cur out out where
  covers := h
  page_out _ _ := rfl
  page_in _ h1 h2 := by omega
  left_out _ _ := rfl
  left_in _ h1 h2 := by omega
  right_out _ _ := rfl
  right_in _ h1 h2 := by omega
  starts _ _ := Iff.rfl

/-- A block inside the range is replaced by its image. -/
theorem image (hi : KMemoryBlock.IsImage g b c) (hK : K b.page) (hb : b.address < b.endAddress)
    (hL : L b.address (some b.page) b.leftMark c.leftMark)
    (hR : R b.endAddress b.rightMark c.rightMark)
    (hL0 : ∀ p pg, b.address < p → L p pg default default)
    (hR0 : ∀ p, p < b.endAddress → R p default default)
    (hs : b.endAddress ≤ stop) (hr : Covers b.endAddress z rest)
    (h : UpdateFrame g K L R b.endAddress z b.endAddress stop rest out) :
    UpdateFrame g K L R b.address z b.address stop (b :: rest) (c :: out) := by
  have hc := hi.endAddress
  refine ⟨?_, fun p hp => ?_, fun p h1 h2 => ?_, fun p hp => ?_, fun p h1 h2 => ?_, fun p hp => ?_,
    fun p h1 h2 => ?_, fun p hp => ?_⟩
  · exact ⟨hi.1, by rw [hc]; exact hb, by rw [hc]; exact h.covers⟩
  · rw [pageAt_cons, pageAt_cons, hi.1, hc, if_neg (by omega), if_neg (by omega), h.page_out p (by omega)]
  · rw [pageAt_cons, pageAt_cons, hi.1, hc]
    by_cases hp : p < b.endAddress
    · rw [if_pos ⟨h1, hp⟩, if_pos ⟨h1, hp⟩, hi.2.2]
      exact ⟨rfl, fun q hq => by cases hq; exact hK⟩
    · rw [if_neg (by omega), if_neg (by omega)]
      exact h.page_in p (by omega) h2
  · rw [leftAt_cons, leftAt_cons, hi.1, if_neg (by omega), if_neg (by omega), h.left_out p (by omega)]
  · rw [leftAt_cons, leftAt_cons, hi.1, pageAt_cons]
    by_cases hp : p < b.endAddress
    · rw [if_pos ⟨h1, hp⟩]
      by_cases hpa : b.address = p
      · rw [if_pos hpa, if_pos hpa, ← hpa]
        exact hL
      · rw [if_neg hpa, if_neg hpa, hr.leftAt_default (.inl hp), h.covers.leftAt_default (.inl hp)]
        exact hL0 p _ (by omega)
    · rw [if_neg (by omega), if_neg (by omega), if_neg (by omega)]
      exact h.left_in p (by omega) h2
  · rw [rightAt_cons, rightAt_cons, hc, if_neg (by omega), if_neg (by omega), h.right_out p (by omega)]
  · rw [rightAt_cons, rightAt_cons, hc]
    by_cases hp : p ≤ b.endAddress
    · by_cases hpe : b.endAddress = p
      · rw [if_pos hpe, if_pos hpe, ← hpe]
        exact hR
      · rw [if_neg hpe, if_neg hpe, hr.rightAt_default (.inl hp), h.covers.rightAt_default (.inl hp)]
        exact hR0 p (by omega)
    · rw [if_neg (by omega), if_neg (by omega)]
      exact h.right_in p (by omega) h2
  · rw [startsAt_cons, startsAt_cons, hi.1, h.starts p (by omega)]

theorem pass (hg : g b.page = b.page) (hK : K b.page) (hL : ∀ p pg m m', L p pg m m')
    (hR : ∀ p m m', R p m m') (hb : b.address < b.endAddress) (hcur : b.address ≤ cur) (hce : cur < b.endAddress)
    (h : UpdateFrame g K L R b.endAddress z b.endAddress stop rest out) :
    UpdateFrame g K L R b.address z cur stop (b :: rest) (b :: out) := by
  refine ⟨⟨rfl, hb, h.covers⟩, fun p hp => ?_, fun p h1 h2 => ?_, fun p hp => ?_,
    fun p h1 h2 => hL _ _ _ _, fun p hp => ?_, fun p h1 h2 => hR _ _ _, fun p hp => ?_⟩
  · rw [pageAt_cons, pageAt_cons, h.page_out p (by omega)]
  · rw [pageAt_cons, pageAt_cons]
    by_cases hp : b.address ≤ p ∧ p < b.endAddress
    · rw [if_pos hp, if_pos hp, map_some, hg]
      exact ⟨rfl, fun q hq => by cases hq; exact hK⟩
    · rw [if_neg hp, if_neg hp]
      exact h.page_in p (by omega) h2
  · rw [leftAt_cons, leftAt_cons, h.left_out p (by omega)]
  · rw [rightAt_cons, rightAt_cons, h.right_out p (by omega)]
  · rw [startsAt_cons, startsAt_cons, h.starts p (by omega)]

theorem passLast (hg : g b.page = b.page) (hK : K b.page) (hL : ∀ p pg m m', L p pg m m')
    (hR : ∀ p m m', R p m m') (hcur : b.address ≤ cur) (hs : stop ≤ b.endAddress)
    (hr : Covers a z (b :: rest)) : UpdateFrame g K L R a z cur stop (b :: rest) (b :: rest) := by
  refine ⟨hr, fun _ _ => rfl, fun p h1 h2 => ?_, fun _ _ => rfl, fun p h1 h2 => hL _ _ _ _,
    fun _ _ => rfl, fun p h1 h2 => hR _ _ _, fun _ _ => Iff.rfl⟩
  rw [pageAt_cons, if_pos ⟨by omega, by omega⟩, map_some, hg]
  exact ⟨rfl, fun q hq => by cases hq; exact hK⟩

/-- The first block has been cut at the beginning of the range. -/
theorem cutBefore (hs : KMemoryBlock.IsSplit b cur l r) (h1 : b.address < cur)
    (h2 : cur < b.endAddress) (hstop : cur < stop) (hr : Covers b.endAddress z rest)
    (h : UpdateFrame g K L R cur z cur stop (r :: rest) out) :
    UpdateFrame g K L R b.address z cur stop (b :: rest) (l :: out) := by
  obtain ⟨al, el, ar, er, pl, pr, ll, rl, lr, rr⟩ := hs
  refine ⟨⟨al, by omega, by rw [el]; exact h.covers⟩, fun p hp => ?_, fun p hp1 hp2 => ?_,
    fun p hp => ?_, fun p hp1 hp2 => ?_, fun p hp => ?_, fun p hp1 hp2 => ?_, fun p hp => ?_⟩
  · rw [pageAt_cons, h.page_out p hp, pageAt_cons, pageAt_cons, al, el, ar, er, pl, pr]
    grind
  · have e : pageAt (b :: rest) p = pageAt (r :: rest) p := by
      rw [pageAt_cons, pageAt_cons, ar, er, pr]
      grind
    rw [pageAt_cons (b := l), if_neg (by omega), e]
    exact h.page_in p hp1 hp2
  · rw [leftAt_cons, h.left_out p hp, leftAt_cons, leftAt_cons, al, ar, ll]
    grind
  · have e : pageAt (b :: rest) p = pageAt (r :: rest) p := by
      rw [pageAt_cons, pageAt_cons, ar, er, pr]
      grind
    have e' : leftAt (b :: rest) p = leftAt (r :: rest) p := by
      rw [leftAt_cons, leftAt_cons, ar, lr, if_neg (by omega)]
      split
      · exact hr.leftAt_default (by omega)
      · rfl
    rw [leftAt_cons (b := l), if_neg (by omega), e, e']
    exact h.left_in p hp1 hp2
  · rw [rightAt_cons, h.right_out p hp, rightAt_cons, rightAt_cons, el, er, rl, rr]
    split
    · rw [if_neg (by omega), hr.rightAt_default (by omega)]
    · rfl
  · have e : rightAt (b :: rest) p = rightAt (r :: rest) p := by
      rw [rightAt_cons, rightAt_cons, er, rr]
    rw [rightAt_cons (b := l), if_neg (by omega), e]
    exact h.right_in p hp1 hp2
  · rw [startsAt_cons, h.starts p hp, startsAt_cons, startsAt_cons, al, ar]
    constructor
    · rintro (h | h | h)
      · exact .inl h
      · omega
      · exact .inr h
    · rintro (h | h)
      · exact .inl h
      · exact .inr (.inr h)

/-- The last block is cut at the end of the range. -/
theorem cutAfter (hs : KMemoryBlock.IsSplit b stop l r) (h1 : b.address < stop)
    (h2 : stop < b.endAddress) (hcur : cur < stop) (hr : Covers b.endAddress z rest)
    (h : UpdateFrame g K L R a z cur stop (l :: r :: rest) out) :
    UpdateFrame g K L R a z cur stop (b :: rest) out := by
  obtain ⟨al, el, ar, er, pl, pr, ll, rl, lr, rr⟩ := hs
  have ep : ∀ p, pageAt (l :: r :: rest) p = pageAt (b :: rest) p := fun p => by
    rw [pageAt_cons, pageAt_cons, pageAt_cons, al, el, ar, er, pl, pr]
    grind
  have el' : ∀ p, leftAt (l :: r :: rest) p = leftAt (b :: rest) p := fun p => by
    rw [leftAt_cons, leftAt_cons, leftAt_cons, al, ar, ll, lr]
    split
    · rfl
    · split
      · exact (hr.leftAt_default (by omega)).symm
      · rfl
  have er' : ∀ p, rightAt (l :: r :: rest) p = rightAt (b :: rest) p := fun p => by
    rw [rightAt_cons, rightAt_cons, rightAt_cons, el, er, rl, rr]
    split
    · rw [if_neg (by omega), hr.rightAt_default (by omega)]
    · rfl
  refine ⟨h.covers, fun p hp => ?_, fun p hp1 hp2 => ?_, fun p hp => ?_, fun p hp1 hp2 => ?_,
    fun p hp => ?_, fun p hp1 hp2 => ?_, fun p hp => ?_⟩
  · rw [h.page_out p hp, ep]
  · rw [← ep]
    exact h.page_in p hp1 hp2
  · rw [h.left_out p hp, el']
  · rw [← ep, ← el']
    exact h.left_in p hp1 hp2
  · rw [h.right_out p hp, er']
  · rw [← er']
    exact h.right_in p hp1 hp2
  · rw [h.starts p hp, startsAt_cons, startsAt_cons, startsAt_cons, al, ar]
    constructor
    · rintro (h | h | h)
      · exact .inl h
      · omega
      · exact .inr h
    · rintro (h | h)
      · exact .inl h
      · exact .inr (.inr h)

end UpdateFrame

/-! ## 4. The loop -/

namespace KMemoryBlockManager

variable {skip : KMemoryBlock → Bool} {call : KMemoryBlock → Option KMemoryBlock}

theorem updateLoop_zero (fuel cur : Nat) (it : List KMemoryBlock) :
    updateLoop skip call fuel cur 0 it = some it := by
  cases fuel <;> simp [updateLoop]

theorem splitBefore_spec {b it : KMemoryBlock} {cur : Nat} {before : List KMemoryBlock}
    (hb : b.address % 4096 = 0) (h : splitBefore b cur = some (before, it)) :
    (b.address = cur ∧ before = [] ∧ it = b) ∨
      (b.address < cur ∧ ∃ l, before = [l] ∧ KMemoryBlock.IsSplit b cur l it) := by
  unfold splitBefore at h
  split at h
  · simp only [Option.bind_eq_bind, Option.bind_eq_some_iff, Option.pure_def, Option.some.injEq,
      Prod.mk.injEq, Prod.exists] at h
    obtain ⟨l, r, hs, rfl, rfl⟩ := h
    obtain ⟨h1, -, -, hs⟩ := KMemoryBlock.split_spec hb hs
    exact .inr ⟨h1, l, rfl, hs⟩
  · simp only [Option.some.injEq, Prod.mk.injEq] at h
    exact .inl ⟨by omega, h.1.symm, h.2.symm⟩

theorem splitAfter_spec {b it : KMemoryBlock} {size : Nat} {after : List KMemoryBlock}
    (hb : b.address % 4096 = 0) (h : splitAfter b size = some (it, after)) :
    (b.endAddress ≤ b.address + size ∧ after = [] ∧ it = b) ∨
      (b.address + size < b.endAddress ∧ ∃ r, after = [r] ∧
        KMemoryBlock.IsSplit b (b.address + size) it r) := by
  unfold splitAfter at h
  split at h
  · rename_i hlt
    simp only [Option.bind_eq_bind, Option.bind_eq_some_iff, Option.pure_def, Option.some.injEq,
      Prod.mk.injEq, Prod.exists] at h
    obtain ⟨l, r, hs, rfl, rfl⟩ := h
    obtain ⟨-, -, -, hs⟩ := KMemoryBlock.split_spec hb hs
    refine .inr ⟨?_, r, rfl, hs⟩
    unfold KMemoryBlock.endAddress
    omega
  · simp only [Option.some.injEq, Prod.mk.injEq] at h
    refine .inl ⟨?_, h.2.symm, h.1.symm⟩
    unfold KMemoryBlock.endAddress
    omega

/-- **The loop meets its frame**, by induction over its iterations: the invariant is that the
    blocks from the iterator on still tile up to `z`, and that the current address lies in the
    first of them. -/
theorem updateLoop_frame {g : Page → Page} {K : Page → Prop}
    {L : Nat → Option Page → LeftMark → LeftMark → Prop} {R : Nat → RightMark → RightMark → Prop} {start stop z : Nat}
    (hskip : ∀ b, skip b = true →
      g b.page = b.page ∧ K b.page ∧ (∀ p pg m m', L p pg m m') ∧ ∀ p m m', R p m m')
    (hpage : ∀ b c, b.page = c.page → skip b = skip c)
    (hcall : ∀ b c, skip b = false → call b = some c → KMemoryBlock.IsImage g b c ∧ K b.page ∧
      L b.address (some b.page) b.leftMark c.leftMark ∧ R b.endAddress b.rightMark c.rightMark)
    (hL : ∀ p pg, start < p → L p pg default default) (hR : ∀ p, p < stop → R p default default)
    (hz : stop ≤ z) (fuel : Nat) : ∀ {cur rem a : Nat} {it out : List KMemoryBlock},
    start ≤ cur → cur % 4096 = 0 → a % 4096 = 0 → Covers a z it → a ≤ cur →
    (∀ b ∈ it.head?, rem ≠ 0 → cur < b.endAddress) → cur + rem * 4096 = stop →
    updateLoop skip call fuel cur rem it = some out → UpdateFrame g K L R a z cur stop it out := by
  induction fuel with
  | zero =>
    intro cur rem a it out _ _ _ hc _ _ hstop h
    simp only [updateLoop] at h
    split at h
    · cases h
      obtain rfl : cur = stop := by omega
      exact .done hc
    · cases h
  | succ fuel ih =>
    intro cur rem a it out hst hcur ha hc hac hhead hstop h
    by_cases hrem : rem = 0
    · subst hrem
      rw [updateLoop_zero] at h
      cases h
      obtain rfl : cur = stop := by omega
      exact .done hc
    cases it with
    | nil => simp [updateLoop, hrem] at h
    | cons b rest =>
    simp only [updateLoop, if_neg hrem, PageSize] at h
    obtain ⟨rfl, hb1, hb2⟩ := hc
    have hce : cur < b.endAddress := hhead b rfl hrem
    have hbe : b.endAddress % 4096 = 0 := by rw [KMemoryBlock.endAddress_eq]; omega
    have hnext : ∀ {r : Nat} (l : List KMemoryBlock) (e : Nat), Covers e z l →
        ∀ c ∈ l.head?, r ≠ 0 → e < c.endAddress := by
      intro r l e hl c hcl _
      cases l with
      | nil => cases hcl
      | cons d l =>
        obtain ⟨h0, h1, _⟩ := hl
        cases hcl
        exact h1
    split at h
    · rename_i hsk
      obtain ⟨hg, hK', hL', hR'⟩ := hskip b hsk
      split at h
      · simp only [updateLoop_zero, Option.pure_def, Option.bind_eq_bind, Option.bind_some,
          Option.some.injEq] at h
        subst h
        exact .passLast hg hK' hL' hR' hac (by omega) ⟨rfl, hb1, hb2⟩
      · simp only [Option.bind_eq_bind, Option.bind_eq_some_iff, Option.pure_def, Option.some.injEq] at h
        obtain ⟨tail, ht, rfl⟩ := h
        refine .pass hg hK' hL' hR' hb1 hac hce
          (ih (by omega) hbe hbe hb2 (Nat.le_refl _) (hnext rest _ hb2) ?_ ht)
        omega
    · simp only [Option.bind_eq_bind, Option.bind_eq_some_iff, Option.pure_def,
        Option.some.injEq, Prod.exists] at h
      obtain ⟨before, mid, hbef, it, after, haft, c, hcc, tail, ht, rfl⟩ := h
      rename_i hsk
      -- the middle block begins at `cur` and ends with `b`
      have hmid : mid.address = cur ∧ mid.endAddress = b.endAddress ∧ mid.page = b.page := by
        rcases splitBefore_spec ha hbef with ⟨e, -, rfl⟩ | ⟨-, l, -, hs⟩
        · exact ⟨e, rfl, rfl⟩
        · exact ⟨hs.address_right, hs.end_right, hs.page_right⟩
      have hit : it.page = b.page := by
        rcases splitAfter_spec (by omega) haft with ⟨-, -, rfl⟩ | ⟨-, r, -, hs⟩
        · exact hmid.2.2
        · exact hs.page_left.trans hmid.2.2
      obtain ⟨himg, hKc, hLc, hRc⟩ := hcall it c (by rw [hpage it b hit]; simpa using hsk) hcc
      have hmidFrame : UpdateFrame g K L R cur z cur stop (mid :: rest) (c :: tail) := by
        have hms : mid.address % 4096 = 0 := by omega
        have hn := KMemoryBlock.endAddress_eq it
        rcases splitAfter_spec hms haft with ⟨hle, rfl, rfl⟩ | ⟨hlt, r, rfl, hs⟩
        · have hcov : Covers it.endAddress z rest := by rw [hmid.2.1]; exact hb2
          have hie : it.endAddress % 4096 = 0 := by omega
          have := ih (by omega) hie hie hcov (Nat.le_refl _) (hnext rest _ hcov) (by omega) ht
          rw [← hmid.1]
          exact .image himg hKc (by omega) hLc hRc (fun p pg hp => hL p pg (by omega))
            (fun p hp => hR p (by omega)) (by omega) hcov this
        · have e : mid.address + rem * 4096 = stop := by omega
          rw [e] at hs hlt
          have hcov : Covers it.endAddress z (r :: rest) := by
            rw [hs.end_left]
            exact ⟨hs.address_right, by rw [hs.end_right]; omega,
              by rw [hs.end_right, hmid.2.1]; exact hb2⟩
          have hil := hs.end_left
          have hal := hs.address_left
          have := ih (by omega) (by omega) (by omega) hcov (Nat.le_refl _)
            (hnext _ _ hcov) (by omega) ht
          have hf : UpdateFrame g K L R it.address z it.address stop (it :: r :: rest) (c :: tail) :=
            .image himg hKc (by omega) hLc hRc (fun p pg hp => hL p pg (by omega))
              (fun p hp => hR p (by omega)) (by omega) hcov this
          rw [hal, hmid.1] at hf
          exact .cutAfter hs (by omega) hlt (by omega) (by rw [hmid.2.1]; exact hb2) hf
      rcases splitBefore_spec ha hbef with ⟨e, rfl, rfl⟩ | ⟨hlt, l, rfl, hs⟩
      · rw [← e] at hmidFrame ⊢
        exact hmidFrame
      · exact .cutBefore hs hlt hce (by omega) hb2 hmidFrame

end KMemoryBlockManager

/-! ## 5. Coalescing -/

/-- The blocks that meet at `j` could be merged. -/
def MergeableAt (bs : List KMemoryBlock) (j : Nat) : Prop :=
  pageAt bs (j - 1) = pageAt bs j ∧ (rightAt bs j).flags = 0 ∧ (leftAt bs j).flags = 0

/-- No two neighbours of a list of blocks that begins at `a` can be merged. -/
def NoMerge (a : Nat) (bs : List KMemoryBlock) : Prop :=
  ∀ j, a < j → StartsAt bs j → ¬ MergeableAt bs j

/-- Where a merge is possible, both edges are bare: a merge forgets nothing. -/
def MergeSafe (a : Nat) (bs : List KMemoryBlock) : Prop :=
  ∀ j, a < j → MergeableAt bs j → leftAt bs j = default ∧ rightAt bs j = default

/-- `out` reads as `bs`, with fewer blocks. -/
structure Coalesced (a z : Nat) (bs out : List KMemoryBlock) : Prop where
  covers : Covers a z out
  page : ∀ p, pageAt out p = pageAt bs p
  leftFlags : ∀ p, (leftAt out p).flags = (leftAt bs p).flags
  rightFlags : ∀ p, (rightAt out p).flags = (rightAt bs p).flags
  starts : ∀ p, StartsAt out p → StartsAt bs p
  edges : MergeSafe a bs → ∀ p, leftAt out p = leftAt bs p ∧ rightAt out p = rightAt bs p

namespace Coalesced

variable {a z m j : Nat} {b c d : KMemoryBlock} {bs cs ds rest : List KMemoryBlock}

theorem refl (h : Covers a z bs) : Coalesced a z bs bs :=
  ⟨h, fun _ => rfl, fun _ => rfl, fun _ => rfl, fun _ => id, fun _ _ => ⟨rfl, rfl⟩⟩

theorem mergeableAt (h : Coalesced a z bs cs) : MergeableAt cs j ↔ MergeableAt bs j := by
  simp only [MergeableAt, h.page, h.leftFlags, h.rightFlags]

theorem trans (h : Coalesced a z bs cs) (h' : Coalesced a z cs ds) : Coalesced a z bs ds where
  covers := h'.covers
  page p := (h'.page p).trans (h.page p)
  leftFlags p := (h'.leftFlags p).trans (h.leftFlags p)
  rightFlags p := (h'.rightFlags p).trans (h.rightFlags p)
  starts p hp := h.starts p (h'.starts p hp)
  edges hs p := by
    have hs' : MergeSafe a cs := fun j ha hj => by
      rw [(h.edges hs j).1, (h.edges hs j).2]
      exact hs j ha (h.mergeableAt.mp hj)
    exact ⟨(h'.edges hs' p).1.trans (h.edges hs p).1, (h'.edges hs' p).2.trans (h.edges hs p).2⟩

/-- Merging two neighbours. -/
theorem merge (hm : b.canMergeWith c = true) (hd : b.add c = some d)
    (h : Covers a z (b :: c :: rest)) : Coalesced a z (b :: c :: rest) (d :: rest) := by
  obtain ⟨hb0, hb1, hc0, hc1, hr⟩ := h
  obtain ⟨da, de, dp, dl, dr⟩ := KMemoryBlock.add_spec hm hc0.symm hd
  obtain ⟨hp, hbr, hcl⟩ := (KMemoryBlock.canMergeWith_iff b c).mp hm
  have hlf : ∀ p, p ≠ c.address → leftAt (d :: rest) p = leftAt (b :: c :: rest) p :=
    fun p hpc => by rw [leftAt_cons, leftAt_cons, leftAt_cons, da, dl, if_neg hpc.symm]
  have hrf : ∀ p, p ≠ b.endAddress → rightAt (d :: rest) p = rightAt (b :: c :: rest) p :=
    fun p hpb => by
      rw [rightAt_cons, rightAt_cons (b := b), rightAt_cons (b := c), de, dr, if_neg hpb.symm]
  have hl : leftAt (d :: rest) c.address = default := by
    rw [leftAt_cons, da, if_neg (by omega), Covers.leftAt_default hr (by omega)]
  have hr' : rightAt (d :: rest) b.endAddress = default := by
    rw [rightAt_cons, de, if_neg (by omega), Covers.rightAt_default hr (by omega)]
  have hl' : leftAt (b :: c :: rest) c.address = c.leftMark := by
    rw [leftAt_cons, leftAt_cons, if_neg (by omega), if_pos rfl]
  have hr'' : rightAt (b :: c :: rest) b.endAddress = b.rightMark := by
    rw [rightAt_cons, if_pos rfl]
  have hpage : ∀ p, pageAt (d :: rest) p = pageAt (b :: c :: rest) p := fun p => by
    rw [pageAt_cons, pageAt_cons, pageAt_cons, da, de, dp, ← hp]
    grind
  have hmg : MergeableAt (b :: c :: rest) c.address := by
    refine ⟨?_, ?_, by rw [hl']; exact hcl⟩
    · rw [pageAt_cons, if_pos ⟨by omega, by omega⟩, pageAt_cons, if_neg (by omega), pageAt_cons,
        if_pos ⟨by omega, by omega⟩, hp]
    · rw [hc0, hr'']
      exact hbr
  refine ⟨⟨da.trans hb0, by omega, by rw [de]; exact hr⟩, hpage, fun p => ?_, fun p => ?_,
    fun p => ?_, fun hs p => ⟨?_, ?_⟩⟩
  · by_cases hpc : p = c.address
    · rw [hpc, hl, hl', hcl]
      rfl
    · rw [hlf p hpc]
  · by_cases hpb : p = b.endAddress
    · rw [hpb, hr', hr'', hbr]
      rfl
    · rw [hrf p hpb]
  · rw [startsAt_cons, startsAt_cons, startsAt_cons, da]
    exact Or.imp_right .inr
  · by_cases hpc : p = c.address
    · rw [hpc, hl, (hs _ (by omega) hmg).1]
    · rw [hlf p hpc]
  · by_cases hpb : p = b.endAddress
    · rw [hpb, hr', ← hc0, (hs _ (by omega) hmg).2]
    · rw [hrf p hpb]

theorem mergeableAt_cons (hb : b.address < b.endAddress) (hj : b.endAddress < j) :
    MergeableAt (b :: bs) j ↔ MergeableAt bs j := by
  simp only [MergeableAt]
  rw [pageAt_cons, if_neg (by omega), pageAt_cons, if_neg (by omega), rightAt_cons,
    if_neg (by omega), leftAt_cons, if_neg (by omega)]

theorem mergeableAt_head (rest : List KMemoryBlock) (hb : b.address < b.endAddress)
    (hc : c.address = b.endAddress) (hc' : c.address < c.endAddress) :
    MergeableAt (b :: c :: rest) c.address ↔ b.canMergeWith c = true := by
  rw [KMemoryBlock.canMergeWith_iff, MergeableAt, pageAt_cons, if_pos ⟨by omega, by omega⟩,
    pageAt_cons, if_neg (by omega), pageAt_cons, if_pos ⟨by omega, by omega⟩, rightAt_cons,
    if_pos hc.symm, leftAt_cons, if_neg (by omega), leftAt_cons, if_pos rfl, Option.some.injEq]

theorem cons (hb : b.address < b.endAddress) (h : Coalesced b.endAddress z bs cs) :
    Coalesced b.address z (b :: bs) (b :: cs) := by
  refine ⟨⟨rfl, hb, h.covers⟩, fun p => ?_, fun p => ?_, fun p => ?_, fun p => ?_,
    fun hs p => ?_⟩
  · rw [pageAt_cons, pageAt_cons, h.page]
  · rw [leftAt_cons, leftAt_cons]
    split
    · rfl
    · exact h.leftFlags p
  · rw [rightAt_cons, rightAt_cons]
    split
    · rfl
    · exact h.rightFlags p
  · rw [startsAt_cons, startsAt_cons]
    exact Or.imp_right (h.starts p)
  · have hs' : MergeSafe b.endAddress bs := fun j hj hm => by
      have := hs j (by omega) ((mergeableAt_cons hb hj).mpr hm)
      rwa [leftAt_cons, if_neg (by omega), rightAt_cons, if_neg (by omega)] at this
    rw [leftAt_cons, leftAt_cons, rightAt_cons, rightAt_cons, (h.edges hs' p).1, (h.edges hs' p).2]
    exact ⟨rfl, rfl⟩

theorem append : ∀ {xs : List KMemoryBlock} {a : Nat}, Covers a m xs → Coalesced m z bs cs →
    Coalesced a z (xs ++ bs) (xs ++ cs)
  | [], a, hx, h => by
    obtain rfl : a = m := hx
    exact h
  | b :: xs, a, ⟨hb0, hb1, hx⟩, h => by
    subst hb0
    exact (append hx h).cons hb1

end Coalesced

namespace KMemoryBlockManager

theorem coalesceLoop_coalesced {stop z : Nat} {rest : List KMemoryBlock} :
    ∀ {prev : KMemoryBlock} {a : Nat} {out : List KMemoryBlock}, Covers a z (prev :: rest) →
    coalesceLoop stop prev rest = some out → Coalesced a z (prev :: rest) out := by
  induction rest with
  | nil =>
    intro prev a out hc h
    cases h
    exact .refl hc
  | cons it rest ih =>
    intro prev a out hc h
    simp only [coalesceLoop] at h
    split at h
    · rename_i hm
      simp only [Option.bind_eq_bind, Option.bind_eq_some_iff] at h
      obtain ⟨merged, hadd, h⟩ := h
      have hmerge := Coalesced.merge hm hadd hc
      split at h
      · cases h
        exact hmerge
      · exact hmerge.trans (ih hmerge.covers h)
    · split at h
      · cases h
        exact .refl hc
      · simp only [Option.bind_eq_bind, Option.bind_eq_some_iff, Option.pure_def, Option.some.injEq] at h
        obtain ⟨tail, ht, rfl⟩ := h
        obtain ⟨rfl, hb1, hc'⟩ := hc
        exact (ih hc' ht).cons hb1

/-- The loop merges every mergeable pair up to `stop`; beyond it there was none. -/
theorem coalesceLoop_noMerge {stop z : Nat} {rest : List KMemoryBlock} :
    ∀ {prev : KMemoryBlock} {a : Nat} {out : List KMemoryBlock}, Covers a z (prev :: rest) →
    (∀ j, a < j → stop < j → StartsAt (prev :: rest) j → ¬ MergeableAt (prev :: rest) j) →
    coalesceLoop stop prev rest = some out → NoMerge a out := by
  induction rest with
  | nil =>
    intro prev a out hc hbeyond h
    cases h
    intro j ha hj
    obtain ⟨h0, -, -⟩ := hc
    rw [startsAt_cons] at hj
    rcases hj with hj | hj
    · omega
    · exact absurd hj (by simp)
  | cons it rest ih =>
    intro prev a out hc hbeyond h
    simp only [coalesceLoop] at h
    split at h
    · rename_i hm
      simp only [Option.bind_eq_bind, Option.bind_eq_some_iff] at h
      obtain ⟨merged, hadd, h⟩ := h
      have hmerge := Coalesced.merge hm hadd hc
      have hbeyond' : ∀ j, a < j → stop < j → StartsAt (merged :: rest) j →
          ¬ MergeableAt (merged :: rest) j := fun j ha hj hs =>
        fun hmj => hbeyond j ha hj (hmerge.starts j hs) (hmerge.mergeableAt.mp hmj)
      split at h
      · cases h
        intro j ha hs
        refine hbeyond' j ha ?_ hs
        obtain ⟨h0, h1, h2⟩ := hmerge.covers
        rw [startsAt_cons] at hs
        rcases hs with hs | hs
        · omega
        · have := h2.starts_bounds hs
          omega
      · exact ih hmerge.covers hbeyond' h
    · rename_i hm
      have hc0 := hc
      obtain ⟨rfl, hb1, hit0, hit1, hc'⟩ := hc
      have hhead : ¬ MergeableAt (prev :: it :: rest) it.address := by
        rw [Coalesced.mergeableAt_head _ hb1 hit0 (by omega)]
        exact hm
      split at h
      · cases h
        intro j ha hs
        rw [startsAt_cons, startsAt_cons] at hs
        rcases hs with hs | hs | hs
        · omega
        · rw [← hs]
          exact hhead
        · have := hc'.starts_bounds hs
          refine hbeyond j ha (by omega) ?_
          rw [startsAt_cons, startsAt_cons]
          exact .inr (.inr hs)
      · simp only [Option.bind_eq_bind, Option.bind_eq_some_iff, Option.pure_def, Option.some.injEq] at h
        obtain ⟨tail, ht, rfl⟩ := h
        have hco := (coalesceLoop_coalesced (a := prev.endAddress) ⟨hit0, hit1, hc'⟩ ht).cons hb1
        have hno : NoMerge prev.endAddress tail := by
          refine ih ⟨hit0, hit1, hc'⟩ (fun j hj hs hst hmj => ?_) ht
          exact hbeyond j (by omega) hs (startsAt_cons.mpr (.inr hst))
            ((Coalesced.mergeableAt_cons hb1 hj).mpr hmj)
        intro j ha hs
        rcases startsAt_cons.mp hs with hs | hs
        · omega
        · have := (hco.covers.2.2).starts_bounds hs
          by_cases hj : j = prev.endAddress
          · rw [hco.mergeableAt, hj, ← hit0]
            exact hhead
          · rw [Coalesced.mergeableAt_cons hb1 (by omega)]
            exact hno j (by omega) hs

/-! ## 6. Finding a block, and the update functions as a whole -/

theorem findIterator_spec {z address : Nat} : ∀ {bs : List KMemoryBlock} {a : Nat}, Covers a z bs →
    a ≤ address → address < z → ∃ xs b ys, bs = xs ++ b :: ys ∧
      findIterator bs address = xs.length ∧ Covers a b.address xs ∧ b.address ≤ address ∧
      address < b.endAddress ∧ b.address < b.endAddress ∧ Covers b.endAddress z ys
  | [], a, h, h1, h2 => by
    have e : a = z := h
    omega
  | b :: bs, a, ⟨hb0, hb1, hb2⟩, h1, h2 => by
    by_cases hb : address < b.endAddress
    · refine ⟨[], b, bs, rfl, ?_, hb0.symm, by omega, hb, by omega, hb2⟩
      simp [findIterator, findIdx_cons, hb, hb0, h1]
    · obtain ⟨xs, c, ys, rfl, hi, hxs, hc1, hc2, hc3, hys⟩ :=
        findIterator_spec hb2 (by omega) h2
      refine ⟨b :: xs, c, ys, rfl, ?_, ⟨hb0, hb1, hxs⟩, hc1, hc2, hc3, hys⟩
      simpa [findIterator, findIdx_cons, hb] using hi

theorem findIterator_end {z address : Nat} : ∀ {bs : List KMemoryBlock} {a : Nat}, Covers a z bs →
    z ≤ address → findIterator bs address = bs.length
  | [], _, _, _ => rfl
  | b :: bs, a, ⟨hb0, hb1, hb2⟩, h => by
    have hle := hb2.le
    have hb : ¬ address < b.endAddress := by omega
    have ih := findIterator_end hb2 h
    simpa [findIterator, findIdx_cons, hb] using ih

/-- What `CoalesceForUpdate` does to a list in which a merge is possible at most at the ends of
    the updated range and inside it. -/
theorem coalesceForUpdate_spec {m m' : KMemoryBlockManager} {address numPages : Nat}
    (hc : Covers m.startAddress m.endAddress m.blocks) (h1 : m.startAddress ≤ address)
    (h2 : address ≤ m.endAddress)
    (hout : ∀ j, m.startAddress < j → j < address ∨ address + numPages * 4096 < j →
      StartsAt m.blocks j → ¬ MergeableAt m.blocks j)
    (h : m.coalesceForUpdate address numPages = some m') :
    m'.startAddress = m.startAddress ∧ m'.endAddress = m.endAddress ∧ address < m.endAddress ∧
      Coalesced m.startAddress m.endAddress m.blocks m'.blocks ∧
      NoMerge m.startAddress m'.blocks := by
  obtain ⟨s, e, bs⟩ := m
  simp only [coalesceForUpdate, Option.bind_eq_bind, Option.bind_eq_some_iff] at h
  dsimp only at hc h1 h2 hout ⊢
  obtain ⟨i, hi, h⟩ := h
  simp only [coalesceStart] at hi
  have he : address < e := by
    refine Nat.lt_of_le_of_ne h2 fun he => ?_
    rw [findIterator_end hc (Nat.le_of_eq he.symm)] at hi
    split at hi
    · simp [stepBack] at hi
    · cases hi
      simp at h
  obtain ⟨xs, b, ys, rfl, hfind, hxs, hb1, hb2, hb3, hys⟩ := findIterator_spec hc h1 he
  -- the list splits where the loop begins: one block before the address, or at the start
  obtain ⟨before, prev, rest, hbs, hlen, hbefore, hprev⟩ : ∃ before prev rest,
      xs ++ b :: ys = before ++ prev :: rest ∧ i = before.length ∧ Covers s prev.address before ∧
      (prev.address < address ∨ prev.address = s) := by
    rw [hfind] at hi
    split at hi
    · rcases List.eq_nil_or_concat xs with rfl | ⟨xs', pv, rfl⟩
      · simp [stepBack] at hi
      · rw [List.concat_eq_append] at hxs
        obtain ⟨mid, hxs', hpv0, hpv1, hpv2⟩ := hxs.of_append
        refine ⟨xs', pv, b :: ys, by simp, ?_, by rw [hpv0]; exact hxs', .inl ?_⟩
        · simp only [stepBack] at hi
          split at hi
          · simpa [eq_comm] using hi
          · cases hi
        · have : pv.endAddress = b.address := hpv2
          omega
    · rename_i hs
      have hs : address = s := by simpa using hs
      cases hi
      refine ⟨xs, b, ys, rfl, rfl, hxs, .inr ?_⟩
      have := hxs.le
      omega
  rw [hbs] at hc hout h ⊢
  rw [hlen, List.drop_left, List.take_left] at h
  simp only [Option.bind_eq_some_iff, Option.pure_def, Option.some.injEq] at h
  obtain ⟨tail, ht, rfl⟩ := h
  have hcp : Covers prev.address e (prev :: rest) := by
    obtain ⟨mid, -, hmid⟩ := hc.of_append
    obtain rfl : prev.address = mid := hmid.1
    exact hmid
  have hco := Coalesced.append hbefore (coalesceLoop_coalesced hcp ht)
  have htail := coalesceLoop_coalesced hcp ht
  have hmg : ∀ l : List KMemoryBlock, ∀ j, prev.address < j →
      (MergeableAt (before ++ l) j ↔ MergeableAt l j) := fun l j hj => by
    have e1 : pageAt (before ++ l) (j - 1) = pageAt l (j - 1) := hbefore.valueAt_append (by omega)
    have e2 : pageAt (before ++ l) j = pageAt l j := hbefore.valueAt_append (by omega)
    have e3 : leftAt (before ++ l) j = leftAt l j := hbefore.markLo_append (by omega)
    have e4 : rightAt (before ++ l) j = rightAt l j := hbefore.markHi_append hj
    simp only [MergeableAt, e1, e2, e3, e4]
  have hno : NoMerge prev.address tail := by
    refine coalesceLoop_noMerge hcp (fun j hj hs hst hm => ?_) ht
    have := hbefore.le
    exact hout j (by omega) (.inr hs) (starts_append.mpr (.inr hst)) ((hmg _ j hj).mpr hm)
  refine ⟨rfl, rfl, he, hco, fun j hj hs => ?_⟩
  by_cases hpj : prev.address < j
  · rw [hmg _ j hpj]
    refine hno j hpj ?_
    rcases starts_append.mp hs with hs | hs
    · have := hbefore.starts_bounds hs
      omega
    · exact hs
  · rw [hco.mergeableAt]
    exact hout j hj (.inl (by omega)) (hco.starts j hs)

end KMemoryBlockManager

theorem UpdateFrame.append {g : Page → Page} {K : Page → Prop}
    {L : Nat → Option Page → LeftMark → LeftMark → Prop} {R : Nat → RightMark → RightMark → Prop}
    {a z m cur stop : Nat} {xs it out : List KMemoryBlock} (hx : Covers a m xs) (hm : m ≤ cur)
    (h : UpdateFrame g K L R m z cur stop it out) :
    UpdateFrame g K L R a z cur stop (xs ++ it) (xs ++ out) := by
  have hp : ∀ l : List KMemoryBlock, ∀ p, cur ≤ p → pageAt (xs ++ l) p = pageAt l p :=
    fun l p hp => hx.valueAt_append (by omega)
  have hl : ∀ l : List KMemoryBlock, ∀ p, cur ≤ p → leftAt (xs ++ l) p = leftAt l p :=
    fun l p hp => hx.markLo_append (by omega)
  have hr : ∀ l : List KMemoryBlock, ∀ p, cur < p → rightAt (xs ++ l) p = rightAt l p :=
    fun l p hp => hx.markHi_append (by omega)
  refine ⟨hx.append h.covers, fun p hp => valueAt_append_congr (h.page_out p hp),
    fun p h1 h2 => ?_, fun p hp => markAt_append_congr (h.left_out p hp), fun p h1 h2 => ?_,
    fun p hp => markAt_append_congr (h.right_out p hp), fun p h1 h2 => ?_, fun p hp => ?_⟩
  · rw [hp _ p h1, hp _ p h1]
    exact h.page_in p h1 h2
  · rw [hp _ p h1, hl _ p h1, hl _ p h1]
    exact h.left_in p h1 h2
  · rw [hr _ p h1, hr _ p h1]
    exact h.right_in p h1 h2
  · exact starts_append.trans ((or_congr_right (h.starts p hp)).trans starts_append.symm)

section

variable {m m' mid : KMemoryBlockManager} {skip : KMemoryBlock → Bool}
  {call : KMemoryBlock → Option KMemoryBlock} {g : Page → Page} {K : Page → Prop}
  {L : Nat → Option Page → LeftMark → LeftMark → Prop} {R : Nat → RightMark → RightMark → Prop}
  {address numPages : Nat}

theorem Covers.aligned : ∀ {l : List KMemoryBlock} {a z : Nat}, Covers a z l → a % 4096 = 0 → z % 4096 = 0
  | [], _, _, h, ha => by
    have e := tiles_nil.mp h
    omega
  | _ :: _, _, _, ⟨h0, _, h⟩, ha => Covers.aligned h (by rw [KMemoryBlock.endAddress_eq]; omega)

/-- The update functions up to coalescing: the loop meets its frame on the blocks of the
    manager. -/
theorem KMemoryBlockManager.updateBlocks_spec (hskip : ∀ b, skip b = true →
      g b.page = b.page ∧ K b.page ∧ (∀ p pg m m', L p pg m m') ∧ ∀ p m m', R p m m')
    (hpage : ∀ b c, b.page = c.page → skip b = skip c)
    (hcall : ∀ b c, skip b = false → call b = some c → KMemoryBlock.IsImage g b c ∧ K b.page ∧
      L b.address (some b.page) b.leftMark c.leftMark ∧ R b.endAddress b.rightMark c.rightMark)
    (hL : ∀ p pg, address < p → L p pg default default)
    (hR : ∀ p, p < address + numPages * 4096 → R p default default)
    (ha : m.startAddress % 4096 = 0) (hc : Covers m.startAddress m.endAddress m.blocks)
    (h1 : m.startAddress ≤ address) (h2 : address + numPages * 4096 ≤ m.endAddress)
    (h : m.updateBlocks address numPages skip call = some mid) :
    mid.startAddress = m.startAddress ∧ mid.endAddress = m.endAddress ∧
      UpdateFrame g K L R m.startAddress m.endAddress address (address + numPages * 4096)
        m.blocks mid.blocks := by
  simp only [updateBlocks, assert_bind_eq_some] at h
  obtain ⟨hal, h⟩ := h
  simp only [Option.bind_eq_bind, Option.bind_eq_some_iff, Option.pure_def, Option.some.injEq] at h
  obtain ⟨tail, ht, rfl⟩ := h
  refine ⟨rfl, rfl, ?_⟩
  by_cases he : address < m.endAddress
  · obtain ⟨xs, b, ys, hbs, hfind, hxs, hb1, hb2, hb3, hys⟩ := findIterator_spec hc h1 he
    rw [hfind, hbs, List.drop_left] at ht
    rw [hfind, hbs, List.take_left]
    refine UpdateFrame.append hxs hb1 ?_
    exact updateLoop_frame hskip hpage hcall hL hR h2 _ (Nat.le_refl _) hal (hxs.aligned ha)
      ⟨rfl, hb3, hys⟩ hb1 (fun c hc _ => by cases hc; exact hb2) rfl ht
  · obtain rfl : numPages = 0 := by omega
    rw [updateLoop_zero] at ht
    cases ht
    rw [List.take_append_drop, Nat.zero_mul, Nat.add_zero]
    exact .done hc

/-- **Coalescing after an update**: where the blocks were not mergeable before the loop, they are
    not outside its range, and the pass takes care of the rest. -/
theorem KMemoryBlockManager.coalesce_updated (hno : NoMerge m.startAddress m.blocks)
    (h1 : m.startAddress ≤ address) (h2 : address + numPages * 4096 ≤ m.endAddress)
    (hs : mid.startAddress = m.startAddress) (he : mid.endAddress = m.endAddress)
    (hf : UpdateFrame g K L R m.startAddress m.endAddress address (address + numPages * 4096)
      m.blocks mid.blocks) (h : mid.coalesceForUpdate address numPages = some m') :
    m'.startAddress = m.startAddress ∧ m'.endAddress = m.endAddress ∧ NoMerge m.startAddress m'.blocks ∧
      Coalesced m.startAddress m.endAddress mid.blocks m'.blocks := by
  rw [← hs, ← he] at hf ⊢
  have hco := coalesceForUpdate_spec hf.covers (by omega) (by omega) (fun j hj hjo hst hm => ?_) h
  · exact ⟨hco.1, hco.2.1, hco.2.2.2.2, hco.2.2.2.1⟩
  · obtain ⟨m1, m2, m3⟩ := hm
    refine hno j (by omega) ((hf.starts j hjo).mp hst) ?_
    rw [hf.page_out _ (by omega), hf.page_out _ (by omega)] at m1
    rw [hf.right_out _ (by omega)] at m2
    rw [hf.left_out _ (by omega)] at m3
    exact ⟨m1, m2, m3⟩

end

/-! ## 7. Where no `ASSERT` can fail -/

namespace KMemoryBlockManager

theorem splitBefore_isSome {b : KMemoryBlock} {cur : Nat} (h1 : b.address ≤ cur)
    (h2 : cur ≤ b.endAddress) (h3 : cur % 4096 = 0) : (splitBefore b cur).isSome = true := by
  unfold splitBefore
  split
  · obtain ⟨⟨l, r⟩, hs⟩ :=
      isSome_iff_exists.mp (KMemoryBlock.split_isSome (by omega) h2 h3)
    simp [hs]
  · rfl

theorem splitAfter_isSome {b : KMemoryBlock} (size : Nat) (h1 : 0 < size)
    (h2 : (b.address + size) % 4096 = 0) : (splitAfter b size).isSome = true := by
  unfold splitAfter
  split
  · rename_i hlt
    have hle : b.address + size ≤ b.endAddress := by
      rw [KMemoryBlock.endAddress]
      omega
    obtain ⟨⟨l, r⟩, hs⟩ :=
      isSome_iff_exists.mp (KMemoryBlock.split_isSome (by omega) hle h2)
    simp [hs]
  · rfl

/-- **The loop finishes** if the member can be called on every block of the range that reads as
    the list does: the blocks it really meets are pieces of the list's. -/
theorem updateLoop_isSome {skip : KMemoryBlock → Bool} (call : KMemoryBlock → Option KMemoryBlock)
    (hskip : ∀ b, skip b = false) {stop z : Nat} (hz : stop ≤ z) (fuel : Nat) :
    ∀ {cur rem a : Nat} (it : List KMemoryBlock), cur % 4096 = 0 → a % 4096 = 0 →
    Covers a z it → a ≤ cur → (∀ b ∈ it.head?, rem ≠ 0 → cur < b.endAddress) →
    cur + rem * 4096 = stop → (rem ≠ 0 → it.length ≤ fuel) →
    (∀ b : KMemoryBlock, cur ≤ b.address → b.endAddress ≤ stop → b.address < b.endAddress →
      pageAt it b.address = some b.page → leftAt it b.address = b.leftMark →
      rightAt it b.endAddress = b.rightMark → (call b).isSome = true) →
    (updateLoop skip call fuel cur rem it).isSome = true := by
  induction fuel with
  | zero =>
    intro cur rem a it _ _ hc hac _ hstop hlen _
    by_cases hrem : rem = 0
    · simp [updateLoop, hrem]
    · obtain rfl : it = [] := eq_nil_of_length_eq_zero (Nat.le_zero.mp (hlen hrem))
      have e : a = z := hc
      omega
  | succ fuel ih =>
    intro cur rem a it hcur ha hc hac hhead hstop hlen hcall
    by_cases hrem : rem = 0
    · rw [hrem, updateLoop_zero]
      rfl
    cases it with
    | nil =>
      have e : a = z := hc
      omega
    | cons b rest =>
    obtain ⟨rfl, hb1, hb2⟩ := hc
    have hce : cur < b.endAddress := hhead b rfl hrem
    have hbe : b.endAddress % 4096 = 0 := by rw [KMemoryBlock.endAddress_eq]; omega
    obtain ⟨⟨before, mid⟩, hbef⟩ :=
      isSome_iff_exists.mp (splitBefore_isSome hac (Nat.le_of_lt hce) hcur)
    -- the middle block begins at `cur`, ends with `b` and reads as the list there
    have hmid : mid.address = cur ∧ mid.endAddress = b.endAddress ∧ mid.page = b.page ∧
        mid.leftMark = leftAt (b :: rest) cur ∧ mid.rightMark = b.rightMark := by
      rcases splitBefore_spec ha hbef with ⟨e, -, rfl⟩ | ⟨hlt, l, -, hs⟩
      · exact ⟨e, rfl, rfl, by rw [leftAt_cons, if_pos e], rfl⟩
      · refine ⟨hs.address_right, hs.end_right, hs.page_right, ?_, hs.rightMark_right⟩
        rw [hs.leftMark_right, leftAt_cons, if_neg (by omega), Covers.leftAt_default hb2 (.inl hce)]
    obtain ⟨m1, m2, m3, m4, m5⟩ := hmid
    obtain ⟨⟨it, after⟩, haft⟩ :=
      isSome_iff_exists.mp (splitAfter_isSome (b := mid) (rem * 4096) (by omega) (by omega))
    have hpage : pageAt (b :: rest) cur = some b.page := by
      rw [pageAt_cons, if_pos ⟨hac, hce⟩]
    have htail : (updateLoop skip call fuel (it.address + it.size) (rem - it.numPages)
        (after ++ rest)).isSome = true ∧ (call it).isSome = true := by
      have hn := KMemoryBlock.endAddress_eq it
      rcases splitAfter_spec (by omega) haft with ⟨hle, rfl, rfl⟩ | ⟨hlt, r, rfl, hs⟩
      · have hie : it.address + it.size = b.endAddress := m2
        constructor
        · rw [hie]
          refine ih rest hbe hbe hb2 (Nat.le_refl _) (fun c hc _ => ?_) (by omega)
            (fun _ => by have := hlen hrem; simp at this ⊢; omega)
            (fun c h1 h2 h3 hp hl hr => ?_)
          · cases rest with
            | nil => cases hc
            | cons d l =>
              obtain ⟨_, h1, _⟩ := hb2
              cases hc
              exact h1
          · refine hcall c (by omega) h2 h3 ?_ ?_ ?_
            · rw [pageAt_cons, if_neg (by omega)]
              exact hp
            · rw [leftAt_cons, if_neg (by omega)]
              exact hl
            · rw [rightAt_cons, if_neg (by omega)]
              exact hr
        · refine hcall it (by omega) (by omega) (by omega) ?_ ?_ ?_
          · rw [m1, hpage, m3]
          · rw [m1, m4]
          · rw [rightAt_cons, if_pos m2.symm, m5]
      · have hal := hs.address_left
        have hel := hs.end_left
        constructor
        · have e : rem - it.numPages = 0 := by omega
          rw [e, updateLoop_zero]
          rfl
        · refine hcall it (by omega) (by omega) (by omega) ?_ ?_ ?_
          · rw [hal, m1, hpage, hs.page_left, m3]
          · rw [hal, m1, hs.leftMark_left, m4]
          · rw [hel, hs.rightMark_left, rightAt_cons, if_neg (by omega),
              Covers.rightAt_default hb2 (.inl (by omega))]
    obtain ⟨htail, hit⟩ := htail
    obtain ⟨c, hc⟩ := isSome_iff_exists.mp hit
    obtain ⟨tail, ht⟩ := isSome_iff_exists.mp htail
    simp [updateLoop, hrem, hskip, hbef, haft, hc, ht]

theorem coalesceLoop_isSome (stop : Nat) {z : Nat} : ∀ {it : List KMemoryBlock}
    {prev : KMemoryBlock} {a : Nat}, Covers a z (prev :: it) → (coalesceLoop stop prev it).isSome = true := by
  intro it
  induction it with
  | nil => intros; rfl
  | cons b rest ih =>
    intro prev a hc
    have hpos : ∀ {c : KMemoryBlock}, c.address < c.endAddress → 0 < c.numPages := by
      intro c h
      rw [KMemoryBlock.endAddress_eq] at h
      omega
    obtain ⟨hp0, hp1, hb0, hb1, hr⟩ := hc
    simp only [coalesceLoop]
    split
    · rename_i hm
      obtain ⟨d, hd⟩ := isSome_iff_exists.mp
        (KMemoryBlock.add_isSome (b := prev) (c := b) (hpos (by omega)) (hpos (by omega)))
      have hco := (Coalesced.merge hm hd ⟨hp0, hp1, hb0, hb1, hr⟩).covers
      simp only [hd, bind_eq_bind, bind_some]
      split
      · rfl
      · exact ih hco
    · split
      · rfl
      · obtain ⟨tail, ht⟩ := isSome_iff_exists.mp (@ih b _ ⟨hb0, hb1, hr⟩)
        simp [ht]

/-- **Coalescing finishes** if it starts at the beginning of the space or if the first block ends
    at or before the address, so that there is a block to step back to. -/
theorem coalesceForUpdate_isSome {m : KMemoryBlockManager} {address : Nat} (numPages : Nat)
    (hc : Covers m.startAddress m.endAddress m.blocks) (h1 : m.startAddress ≤ address)
    (h2 : address < m.endAddress)
    (hfirst : address = m.startAddress ∨ ∀ b ∈ m.blocks.head?, b.endAddress ≤ address) :
    (m.coalesceForUpdate address numPages).isSome = true := by
  obtain ⟨s, e, bs⟩ := m
  dsimp only at hc h1 h2 hfirst
  obtain ⟨xs, b, ys, rfl, hfind, hxs, hb1, hb2, hb3, hys⟩ := findIterator_spec hc h1 h2
  obtain ⟨i, before, prev, rest, hst, hbs, hlen⟩ : ∃ i before prev rest,
      coalesceStart ⟨s, e, xs ++ b :: ys⟩ address = some i ∧
      xs ++ b :: ys = before ++ prev :: rest ∧ i = before.length := by
    simp only [coalesceStart, hfind]
    by_cases hs : address = s
    · rw [if_neg (by simpa using hs)]
      exact ⟨_, xs, b, ys, rfl, rfl, rfl⟩
    · rw [if_pos hs]
      rcases eq_nil_or_concat xs with rfl | ⟨xs', pv, rfl⟩
      · rcases hfirst with h | h
        · exact absurd h hs
        · have := h b rfl
          omega
      · exact ⟨xs'.length, xs', pv, b :: ys, by simp [stepBack], by simp, rfl⟩
  rw [hbs] at hc hst ⊢
  obtain ⟨mid, -, hmid⟩ := hc.of_append
  obtain ⟨tail, ht⟩ := isSome_iff_exists.mp (coalesceLoop_isSome (address + numPages * PageSize) hmid)
  simp only [coalesceForUpdate, hst, bind_eq_bind, bind_some, hlen, drop_left, ht]
  rfl

end KMemoryBlockManager

end Yuzu.Kernel
