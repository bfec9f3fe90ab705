/-
  File:      Yuzu/Common/LruCache.lean
  Subject:   Common::LeastRecentlyUsedCache (common/lru_cache.h).

  The items stand in a pool and are linked both ways from the least recently touched one on. A link is
  the place of an item; the first and the last item are the links of the root `none`. `LruRun` pairs the
  cache with the object of each live id and with the last tick that a call was given.

  `ForEachItemBelow` decides at compile time whether the callback's result is looked at, with a trait that
  no callback has. The comparison of ticks goes through signed numbers.
-/
import Mathlib.Algebra.Order.Ring.Int
import Mathlib.Data.List.TakeWhile
import Yuzu.Lib.Linked
import Yuzu.Lib.Trace

namespace Yuzu.Common

open Function List Option

/-! ## 1. The cache -/

/-- `Item`. -/
structure LruItem (Obj : Type) where
  obj : Obj
  tick : Nat := 0
  next : Option Nat := none
  prev : Option Nat := none

/-- `LeastRecentlyUsedCache`. -/
structure LeastRecentlyUsedCache (Obj : Type) where
  itemPool : Nat → LruItem Obj
  poolSize : Nat
  freeItems : List Nat
  firstItem : Option Nat
  lastItem : Option Nat

namespace LeastRecentlyUsedCache

variable {Obj : Type}

/-- The constructor. -/
def empty [Inhabited Obj] : LeastRecentlyUsedCache Obj :=
  ⟨fun _ => { obj := default }, 0, [], none, none⟩

/-- A write to an item of the pool. -/
def modifyItem (c : LeastRecentlyUsedCache Obj) (id : Nat) (f : LruItem Obj → LruItem Obj) :
    LeastRecentlyUsedCache Obj :=
  { c with itemPool := update c.itemPool id (f (c.itemPool id)) }

/-- `Build`. -/
def build [Inhabited Obj] (c : LeastRecentlyUsedCache Obj) : Nat × LeastRecentlyUsedCache Obj :=
  match c.freeItems with
  | [] =>
    (c.poolSize, { c with
      itemPool := update c.itemPool c.poolSize { obj := default }
      poolSize := c.poolSize + 1 })
  | itemId :: freeItems =>
    (itemId, ({ c with freeItems }).modifyItem itemId fun item => { item with next := none, prev := none })

/-- `Attach`. -/
def attach (c : LeastRecentlyUsedCache Obj) (item : Nat) : LeastRecentlyUsedCache Obj :=
  let c := if c.firstItem.isNone then { c with firstItem := some item } else c
  match c.lastItem with
  | none => { c with lastItem := some item }
  | some last =>
    let c := c.modifyItem item fun it => { it with prev := some last }
    let c := c.modifyItem last fun it => { it with next := some item }
    let c := c.modifyItem item fun it => { it with next := none }
    { c with lastItem := some item }

/-- `Detach`. -/
def detach (c : LeastRecentlyUsedCache Obj) (item : Nat) : LeastRecentlyUsedCache Obj :=
  let c : LeastRecentlyUsedCache Obj := match (c.itemPool item).prev with
    | some prev => c.modifyItem prev fun it => { it with next := (c.itemPool item).next }
    | none => c
  let c : LeastRecentlyUsedCache Obj := match (c.itemPool item).next with
    | some next => c.modifyItem next fun it => { it with prev := (c.itemPool item).prev }
    | none => c
  let c : LeastRecentlyUsedCache Obj := if c.firstItem = some item then
      match (c.itemPool item).next with
      | some first => ({ c with firstItem := some first }).modifyItem first fun it => { it with prev := none }
      | none => { c with firstItem := none }
    else c
  if c.lastItem = some item then
    match (c.itemPool item).prev with
    | some last => ({ c with lastItem := some last }).modifyItem last fun it => { it with next := none }
    | none => { c with lastItem := none }
  else c

/-- `Insert`. -/
def insert [Inhabited Obj] (c : LeastRecentlyUsedCache Obj) (obj : Obj) (tick : Nat) :
    Nat × LeastRecentlyUsedCache Obj :=
  let (newId, c) := c.build
  let c := c.modifyItem newId fun item => { item with obj, tick }
  (newId, c.attach newId)

/-- `Touch`. -/
def touch (c : LeastRecentlyUsedCache Obj) (id tick : Nat) : LeastRecentlyUsedCache Obj :=
  if tick ≤ (c.itemPool id).tick then c
  else
    let c := c.modifyItem id fun item => { item with tick }
    if c.lastItem = some id then c
    else (c.detach id).attach id

/-- `Free`. -/
def free (c : LeastRecentlyUsedCache Obj) (id : Nat) : LeastRecentlyUsedCache Obj :=
  let c := (c.detach id).modifyItem id fun item => { item with prev := none, next := none }
  { c with freeItems := c.freeItems ++ [id] }

/-! ## 2. The visits -/

/-- `static_cast<s64>` of a tick. -/
def toS64 (tick : Nat) : Int := if tick < 2 ^ 63 then tick else tick - 2 ^ 64

/-- What a callback does with an object: its result, whether it frees the item, and what it keeps. -/
structure Answer (W : Type) where
  result : Bool
  frees : Bool
  world : W

/-- The forward links, with the first item as that of the root. -/
def nextLink (c : LeastRecentlyUsedCache Obj) : Option Nat → Option Nat
  | none => c.firstItem
  | some id => (c.itemPool id).next

/-- The backward links, with the last item as that of the root. -/
def prevLink (c : LeastRecentlyUsedCache Obj) : Option Nat → Option Nat
  | none => c.lastItem
  | some id => (c.itemPool id).prev

/-- **The items of the list are these, in order.** -/
def Lists (c : LeastRecentlyUsedCache Obj) (ids : List Nat) : Prop := Ring c.nextLink c.prevLink ids

/-- Everything but the links. -/
structure SameItems (c c' : LeastRecentlyUsedCache Obj) : Prop where
  obj : ∀ i, (c'.itemPool i).obj = (c.itemPool i).obj
  tick : ∀ i, (c'.itemPool i).tick = (c.itemPool i).tick
  poolSize : c'.poolSize = c.poolSize
  freeItems : c'.freeItems = c.freeItems

variable {c c' c'' : LeastRecentlyUsedCache Obj} {f : LruItem Obj → LruItem Obj} {i id : Nat} {p n : Option Nat}
  {A B L : List Nat}

theorem SameItems.refl (c : LeastRecentlyUsedCache Obj) : SameItems c c :=
  ⟨fun _ => rfl, fun _ => rfl, rfl, rfl⟩

theorem SameItems.trans (h : SameItems c c') (h' : SameItems c' c'') : SameItems c c'' :=
  ⟨fun i => (h'.obj i).trans (h.obj i), fun i => (h'.tick i).trans (h.tick i),
    h'.poolSize.trans h.poolSize, h'.freeItems.trans h.freeItems⟩

theorem sameItems_modifyItem (hobj : ∀ it, (f it).obj = it.obj) (htick : ∀ it, (f it).tick = it.tick) :
    SameItems c (c.modifyItem id f) := by
  refine ⟨fun i => ?_, fun i => ?_, rfl, rfl⟩
  · rw [modifyItem]
    by_cases h : i = id
    · rw [h]
      dsimp only
      rw [update_self, hobj]
    · dsimp only
      rw [update_of_ne h]
  · rw [modifyItem]
    by_cases h : i = id
    · rw [h]
      dsimp only
      rw [update_self, htick]
    · dsimp only
      rw [update_of_ne h]

@[simp] theorem itemPool_modifyItem_self : (c.modifyItem id f).itemPool id = f (c.itemPool id) :=
  update_self ..

@[simp] theorem itemPool_modifyItem_ne (h : i ≠ id) : (c.modifyItem id f).itemPool i = c.itemPool i :=
  update_of_ne h ..

theorem links_setNext (c : LeastRecentlyUsedCache Obj) (id : Nat) (v : Option Nat) :
    (c.modifyItem id fun it => { it with next := v }).nextLink = update c.nextLink (some id) v ∧
      (c.modifyItem id fun it => { it with next := v }).prevLink = c.prevLink ∧
      SameItems c (c.modifyItem id fun it => { it with next := v }) := by
  refine ⟨?_, ?_, sameItems_modifyItem (fun _ => rfl) fun _ => rfl⟩
  · funext q
    cases q with
    | none => rw [update_of_ne (some_ne_none id).symm]; rfl
    | some i =>
      by_cases h : i = id
      · rw [h, update_self, nextLink, itemPool_modifyItem_self]
      · rw [update_of_ne (fun e => h (some.inj e)), nextLink, nextLink, itemPool_modifyItem_ne h]
  · funext q
    cases q with
    | none => rfl
    | some i =>
      by_cases h : i = id
      · rw [h, prevLink, prevLink, itemPool_modifyItem_self]
      · rw [prevLink, prevLink, itemPool_modifyItem_ne h]

theorem links_setPrev (c : LeastRecentlyUsedCache Obj) (id : Nat) (v : Option Nat) :
    (c.modifyItem id fun it => { it with prev := v }).nextLink = c.nextLink ∧
      (c.modifyItem id fun it => { it with prev := v }).prevLink = update c.prevLink (some id) v ∧
      SameItems c (c.modifyItem id fun it => { it with prev := v }) := by
  refine ⟨?_, ?_, sameItems_modifyItem (fun _ => rfl) fun _ => rfl⟩
  · funext q
    cases q with
    | none => rfl
    | some i =>
      by_cases h : i = id
      · rw [h, nextLink, nextLink, itemPool_modifyItem_self]
      · rw [nextLink, nextLink, itemPool_modifyItem_ne h]
  · funext q
    cases q with
    | none => rw [update_of_ne (some_ne_none id).symm]; rfl
    | some i =>
      by_cases h : i = id
      · rw [h, update_self, prevLink, itemPool_modifyItem_self]
      · rw [update_of_ne (fun e => h (some.inj e)), prevLink, prevLink, itemPool_modifyItem_ne h]

theorem links_setItem (c : LeastRecentlyUsedCache Obj) (id : Nat) (hnext : ∀ it, (f it).next = it.next) (hprev : ∀ it, (f it).prev = it.prev) :
    (c.modifyItem id f).nextLink = c.nextLink ∧ (c.modifyItem id f).prevLink = c.prevLink := by
  constructor
  · funext q
    cases q with
    | none => rfl
    | some i =>
      by_cases h : i = id
      · rw [h, nextLink, nextLink, itemPool_modifyItem_self, hnext]
      · rw [nextLink, nextLink, itemPool_modifyItem_ne h]
  · funext q
    cases q with
    | none => rfl
    | some i =>
      by_cases h : i = id
      · rw [h, prevLink, prevLink, itemPool_modifyItem_self, hprev]
      · rw [prevLink, prevLink, itemPool_modifyItem_ne h]

theorem links_setFirst (c : LeastRecentlyUsedCache Obj) (v : Option Nat) :
    ({ c with firstItem := v } : LeastRecentlyUsedCache Obj).nextLink = update c.nextLink none v ∧
      ({ c with firstItem := v } : LeastRecentlyUsedCache Obj).prevLink = c.prevLink ∧
      SameItems c { c with firstItem := v } := by
  refine ⟨?_, ?_, ⟨fun _ => rfl, fun _ => rfl, rfl, rfl⟩⟩
  · funext q
    cases q with
    | none => rw [update_self]; rfl
    | some i => rw [update_of_ne (some_ne_none i)]; rfl
  · funext q
    cases q <;> rfl

theorem links_setLast (c : LeastRecentlyUsedCache Obj) (v : Option Nat) :
    ({ c with lastItem := v } : LeastRecentlyUsedCache Obj).nextLink = c.nextLink ∧
      ({ c with lastItem := v } : LeastRecentlyUsedCache Obj).prevLink = update c.prevLink none v ∧
      SameItems c { c with lastItem := v } := by
  refine ⟨?_, ?_, ⟨fun _ => rfl, fun _ => rfl, rfl, rfl⟩⟩
  · funext q
    cases q <;> rfl
  · funext q
    cases q with
    | none => rw [update_self]; rfl
    | some i => rw [update_of_ne (some_ne_none i)]; rfl

/-- **What `Detach` does to the links**: the neighbours of the item are linked to each other. -/
theorem detach_links (hprev : c.prevLink (some id) = p) (hnext : c.nextLink (some id) = n)
    (hfirst : c.firstItem = some id ↔ p = none) (hlast : c.lastItem = some id ↔ n = none)
    (hp : p ≠ some id) (hn : n ≠ some id) :
    (c.detach id).nextLink = update c.nextLink p n ∧ (c.detach id).prevLink = update c.prevLink n p ∧
      SameItems c (c.detach id) := by
  have hprev : (c.itemPool id).prev = p := hprev
  have hnext : (c.itemPool id).next = n := hnext
  cases p with
  | none =>
    cases n with
    | none =>
      have e : c.detach id = { c with firstItem := none, lastItem := none } := by
        simp only [detach, hprev, hnext, hfirst.mpr rfl, hlast.mpr rfl, if_true]
      rw [e]
      have h1 := links_setFirst c none
      have h2 := links_setLast { c with firstItem := none } none
      exact ⟨h2.1.trans h1.1, h2.2.1.trans (by rw [h1.2.1]), h1.2.2.trans h2.2.2⟩
    | some b =>
      have hb : id ≠ b := fun e => hn (by rw [e])
      have hlast : c.lastItem ≠ some id := fun e => some_ne_none b (hlast.mp e)
      have e : c.detach id =
          ({ c.modifyItem b fun it => { it with prev := none } with firstItem := some b } :
            LeastRecentlyUsedCache Obj).modifyItem b fun it => { it with prev := none } := by
        simp only [detach, hprev, hnext]
        rw [if_pos (show (c.modifyItem b _).firstItem = some id from hfirst.mpr rfl)]
        simp only [itemPool_modifyItem_ne hb, hnext]
        rw [if_neg]
        exact hlast
      have h1 := links_setPrev c b none
      have h2 := links_setFirst (c.modifyItem b fun it => { it with prev := none }) (some b)
      have h3 := links_setPrev
        { c.modifyItem b fun it => { it with prev := none } with firstItem := some b } b none
      rw [e]
      refine ⟨?_, ?_, (h1.2.2.trans h2.2.2).trans h3.2.2⟩
      · rw [h3.1, h2.1, h1.1]
      · rw [h3.2.1, h2.2.1, h1.2.1, update_idem]
  | some a =>
    have ha : id ≠ a := fun e => hp (by rw [e])
    have hfirst : c.firstItem ≠ some id := fun e => some_ne_none a (hfirst.mp e)
    cases n with
    | none =>
      have e : c.detach id =
          ({ c.modifyItem a fun it => { it with next := none } with lastItem := some a } :
            LeastRecentlyUsedCache Obj).modifyItem a fun it => { it with next := none } := by
        simp only [detach, hprev, hnext, itemPool_modifyItem_ne ha]
        rw [if_neg (show (c.modifyItem a _).firstItem ≠ some id from hfirst),
          if_pos (show (c.modifyItem a _).lastItem = some id from hlast.mpr rfl)]
        simp only [itemPool_modifyItem_ne ha, hprev]
      have h1 := links_setNext c a none
      have h2 := links_setLast (c.modifyItem a fun it => { it with next := none }) (some a)
      have h3 := links_setNext
        { c.modifyItem a fun it => { it with next := none } with lastItem := some a } a none
      rw [e]
      refine ⟨?_, ?_, (h1.2.2.trans h2.2.2).trans h3.2.2⟩
      · rw [h3.1, h2.1, h1.1, update_idem]
      · rw [h3.2.1, h2.2.1, h1.2.1]
    | some b =>
      have hlast : c.lastItem ≠ some id := fun e => some_ne_none b (hlast.mp e)
      have e : c.detach id = (c.modifyItem a fun it => { it with next := some b }).modifyItem b
          fun it => { it with prev := some a } := by
        have hfirst' : ∀ f g, ((c.modifyItem a f).modifyItem b g).firstItem ≠ some id := fun _ _ => hfirst
        have hlast' : ∀ f g, ((c.modifyItem a f).modifyItem b g).lastItem ≠ some id := fun _ _ => hlast
        simp only [detach, hprev, hnext, itemPool_modifyItem_ne ha, if_neg (hfirst' _ _),
          if_neg (hlast' _ _)]
      have h1 := links_setNext c a (some b)
      have h2 := links_setPrev (c.modifyItem a fun it => { it with next := some b }) b (some a)
      rw [e]
      refine ⟨?_, ?_, h1.2.2.trans h2.2.2⟩
      · rw [h2.1, h1.1]
      · rw [h2.2.1, h1.2.1]

/-- `Detach` takes an item out of the list. -/
theorem Lists.detach (h : c.Lists (A ++ id :: B)) :
    (c.detach id).Lists (A ++ B) ∧ SameItems c (c.detach id) := by
  have hnodup := nodup_middle.mp h.nodup
  have hnot : id ∉ A ++ B := hnodup.notMem
  have hA : id ∉ A := fun hm => hnot (mem_append_left B hm)
  have hB : id ∉ B := fun hm => hnot (mem_append_right A hm)
  have hp : A.getLast? ≠ some id := fun e => hA (mem_of_getLast? e)
  have hn : B.head? ≠ some id := fun e => hB (mem_of_head? e)
  have hfirst : c.firstItem = some id ↔ A.getLast? = none := by
    rw [show c.firstItem = (A ++ id :: B).head? from h.next_none, List.getLast?_eq_none_iff]
    cases A with
    | nil => exact iff_of_true rfl rfl
    | cons a A => exact iff_of_false (fun e => hA (mem_of_head? e)) (cons_ne_nil a A)
  have hlast : c.lastItem = some id ↔ B.head? = none := by
    rw [show c.lastItem = (A ++ id :: B).getLast? from h.prev_none, List.head?_eq_none_iff,
      List.getLast?_append_of_ne_nil _ (cons_ne_nil id B)]
    cases B with
    | nil => exact iff_of_true rfl rfl
    | cons b B =>
      rw [List.getLast?_cons_cons]
      exact iff_of_false (fun e => hB (mem_of_getLast? e)) (cons_ne_nil b B)
  obtain ⟨hnext', hprev', hsame⟩ := detach_links h.prev_some h.next_some hfirst hlast hp hn
  refine ⟨?_, hsame⟩
  rw [Lists, hnext', hprev']
  exact Ring.remove h (update_self ..) (fun q hq _ => update_of_ne hq _ _) (update_self ..)
    fun q hq _ => update_of_ne hq _ _

/-- **What `Attach` does to the links**: the item comes behind the last one. -/
theorem attach_links (h : c.Lists L) (hid : id ∉ L)
    (hnil : L = [] → c.nextLink (some id) = none ∧ c.prevLink (some id) = none) :
    (c.attach id).Lists (L ++ [id]) ∧ SameItems c (c.attach id) := by
  have hfirst : c.firstItem = L.head? := h.next_none
  have hlast : c.lastItem = L.getLast? := h.prev_none
  cases hl : L.getLast? with
  | none =>
    obtain rfl := List.getLast?_eq_none_iff.mp hl
    obtain ⟨hnext, hprev⟩ := hnil rfl
    have e : c.attach id = { c with firstItem := some id, lastItem := some id } := by
      simp only [attach, hfirst, hlast, List.head?_nil, List.getLast?_nil, isNone_none, if_true]
    rw [e]
    have h1 := links_setFirst c (some id)
    have h2 := links_setLast { c with firstItem := some id } (some id)
    refine ⟨?_, h1.2.2.trans h2.2.2⟩
    refine Ring.insert (A := []) (B := []) h hid ?_ ?_ ?_ ?_ ?_ ?_
    · rfl
    · exact hnext
    · intro q hq _
      rw [h2.1, h1.1]
      exact update_of_ne hq _ _
    · rfl
    · exact hprev
    · intro q hq _
      rw [h2.2.1, h1.2.1]
      exact update_of_ne hq _ _
  | some last =>
    have hmem : last ∈ L := mem_of_getLast? hl
    have hne : L ≠ [] := ne_nil_of_mem hmem
    have hsome : c.firstItem.isNone = false := by
      rw [hfirst, List.head?_eq_some_head hne]
      rfl
    have hid' : id ≠ last := fun e => hid (by rwa [e])
    have e : c.attach id = { ((c.modifyItem id fun it => { it with prev := some last }).modifyItem last
        fun it => { it with next := some id }).modifyItem id fun it => { it with next := none }
          with lastItem := some id } := by
      simp only [attach, hsome, hlast, hl, Bool.false_eq_true, if_false]
    have h1 := links_setPrev c id (some last)
    have h2 := links_setNext (c.modifyItem id fun it => { it with prev := some last }) last (some id)
    have h3 := links_setNext ((c.modifyItem id fun it => { it with prev := some last }).modifyItem last
      fun it => { it with next := some id }) id none
    have h4 := links_setLast (((c.modifyItem id fun it => { it with prev := some last }).modifyItem last
      fun it => { it with next := some id }).modifyItem id fun it => { it with next := none }) (some id)
    rw [← e] at h4
    have hnext : (c.attach id).nextLink =
        update (update c.nextLink (some last) (some id)) (some id) none := by
      rw [h4.1, h3.1, h2.1, h1.1]
    have hprev : (c.attach id).prevLink =
        update (update c.prevLink (some id) (some last)) none (some id) := by
      rw [h4.2.1, h3.2.1, h2.2.1, h1.2.1]
    have hsome' : some last ≠ some id := fun e => hid' (some.inj e).symm
    refine ⟨?_, ?_⟩
    · rw [Lists, hnext, hprev]
      refine Ring.insert (A := L) (B := []) (by rwa [append_nil]) (by rwa [append_nil]) ?_ ?_ ?_ ?_ ?_ ?_
      · rw [hl, update_of_ne hsome', update_self]
      · rw [update_self]
        rfl
      · intro q hq hq'
        rw [hl] at hq
        rw [update_of_ne hq', update_of_ne hq]
      · exact update_self ..
      · rw [update_of_ne (some_ne_none id), update_self, hl]
      · intro q hq hq'
        have hq : q ≠ none := hq
        rw [update_of_ne hq, update_of_ne hq']
    · exact ((h1.2.2.trans h2.2.2).trans h3.2.2).trans h4.2.2

theorem Lists.free (h : c.Lists (A ++ id :: B)) :
    (c.free id).Lists (A ++ B) ∧ (∀ i, ((c.free id).itemPool i).obj = (c.itemPool i).obj) ∧
      (∀ i, ((c.free id).itemPool i).tick = (c.itemPool i).tick) ∧
      (c.free id).poolSize = c.poolSize ∧ (c.free id).freeItems = c.freeItems ++ [id] := by
  obtain ⟨hlists, hsame⟩ := h.detach
  have hnot : id ∉ A ++ B := (nodup_middle.mp h.nodup).notMem
  have hreset : SameItems (c.detach id)
      ((c.detach id).modifyItem id fun item => { item with prev := none, next := none }) :=
    sameItems_modifyItem (fun _ => rfl) fun _ => rfl
  have hlink : ∀ i ∈ A ++ B, (c.free id).itemPool i = (c.detach id).itemPool i := by
    intro i hi
    have hne : i ≠ id := fun e => hnot (by rwa [← e])
    exact update_of_ne hne _ (c.detach id).itemPool
  refine ⟨?_, fun i => (hreset.obj i).trans (hsame.obj i), fun i => (hreset.tick i).trans (hsame.tick i),
    hsame.poolSize, congrArg (· ++ [id]) hsame.freeItems⟩
  refine Ring.congr hlists rfl rfl (fun i hi => ?_) fun i hi => ?_
  · exact congrArg LruItem.next (hlink i hi)
  · exact congrArg LruItem.prev (hlink i hi)

/-! ## 4. The loop -/

/-- The items with a tick that the loop goes past. -/
def within (c : LeastRecentlyUsedCache Obj) (tick id : Nat) : Bool :=
  decide (toS64 (c.itemPool id).tick ≤ toS64 tick)

variable {W : Type}

variable {func : W → Obj → Answer W}

end LeastRecentlyUsedCache

/-! ## 5. Runs -/

/-- A cache, the object of each live id, and the last tick that a call was given. -/
structure LruRun (Obj : Type) where
  cache : LeastRecentlyUsedCache Obj
  live : Nat → Option Obj
  now : Nat

/-- A call. -/
inductive LruOp (Obj : Type) where
  | insert (obj : Obj) (tick : Nat)
  | touch (id tick : Nat)
  | free (id : Nat)

namespace LruRun

open LeastRecentlyUsedCache (Answer)

variable {Obj : Type} [Inhabited Obj]

/-- Before the first call. -/
def start : LruRun Obj := ⟨.empty, fun _ => none, 0⟩

/-- What a call does, with the id that `Insert` returns. -/
def step (s : LruRun Obj) : LruOp Obj → Option Nat × LruRun Obj
  | .insert obj tick =>
    let (id, cache) := s.cache.insert obj tick
    (some id, ⟨cache, update s.live id (some obj), tick⟩)
  | .touch id tick => (none, ⟨s.cache.touch id tick, s.live, tick⟩)
  | .free id => (none, ⟨s.cache.free id, update s.live id none, s.now⟩)

/-- The calls that may be made: ticks are `u64` and do not decrease, and ids are live. -/
def Allowed (s : LruRun Obj) : LruOp Obj → Prop
  | .insert _ tick => s.now ≤ tick ∧ tick < 2 ^ 64
  | .touch id tick => s.live id ≠ none ∧ s.now ≤ tick ∧ tick < 2 ^ 64
  | .free id => s.live id ≠ none

/-- The tick of an item. -/
def tick (s : LruRun Obj) (id : Nat) : Nat := (s.cache.itemPool id).tick

/-- **The list of the cache**: each live id once, linked both ways, with its object, and with ticks that
do not decrease. -/
structure Listed (s : LruRun Obj) (ids : List Nat) : Prop where
  lists : s.cache.Lists ids
  mem : ∀ id, id ∈ ids ↔ s.live id ≠ none
  obj : ∀ id ∈ ids, s.live id = some (s.cache.itemPool id).obj
  sorted : ids.Pairwise fun i j => s.tick i ≤ s.tick j

/-- The invariant: the list, and the ids that can be handed out. -/
structure Inv (s : LruRun Obj) : Prop where
  listed : ∃ ids, s.Listed ids
  tick_le : ∀ id, s.live id ≠ none → s.tick id ≤ s.now
  now_lt : s.now < 2 ^ 64
  live_lt : ∀ id, s.live id ≠ none → id < s.cache.poolSize
  freeItems : ∀ id ∈ s.cache.freeItems, s.live id = none ∧ id < s.cache.poolSize
  free_nodup : s.cache.freeItems.Nodup

/-- The items that `ForEachItemBelow(tick, ..)` should come to. -/
def below (s : LruRun Obj) (ids : List Nat) (tick : Nat) : List Nat :=
  ids.filter fun id => s.tick id ≤ tick

/-- The items that a callback should be called for: up to the first one where it returns true. -/
def expected {W : Type} (s : LruRun Obj) (func : W → Obj → Answer W) : W → List Nat → List Nat
  | _, [] => []
  | w, id :: ids =>
    let answer := func w (s.cache.itemPool id).obj
    id :: if answer.result then [] else expected s func answer.world ids

variable {s : LruRun Obj} {L : List Nat} {id t : Nat}

theorem inv_start : (start : LruRun Obj).Inv where
  listed := ⟨[],
    { lists := Ring.nil rfl rfl
      mem := fun id => ⟨fun h => absurd h not_mem_nil, fun h => absurd rfl h⟩
      obj := fun id h => absurd h not_mem_nil
      sorted := .nil }⟩
  tick_le id h := absurd rfl h
  now_lt := (by decide : 0 < 2 ^ 64)
  live_lt id h := absurd rfl h
  freeItems id h := absurd h not_mem_nil
  free_nodup := nodup_nil

/-- What `Build` hands out is not live, and not linked. -/
theorem Inv.build (h : s.Inv) (hL : s.Listed L) :
    let (id, c) := s.cache.build
    s.live id = none ∧ c.Lists L ∧ c.nextLink (some id) = none ∧ c.prevLink (some id) = none ∧
      (∀ i, i ≠ id → c.itemPool i = s.cache.itemPool i) ∧
      (∀ i, s.live i ≠ none ∨ i = id → i < c.poolSize) ∧
      (∀ i ∈ c.freeItems, (s.live i = none ∧ i ≠ id) ∧ i < c.poolSize) ∧ c.freeItems.Nodup := by
  rw [LeastRecentlyUsedCache.build]
  cases hfree : s.cache.freeItems with
  | nil =>
    have hdead : s.live s.cache.poolSize = none := by
      by_contra hn
      exact Nat.lt_irrefl _ (h.live_lt _ hn)
    have hne : ∀ i ∈ L, i ≠ s.cache.poolSize := fun i hi e => (hL.mem i).mp hi (by rw [e, hdead])
    have hother : ∀ i, i ≠ s.cache.poolSize →
        update s.cache.itemPool s.cache.poolSize { obj := default } i = s.cache.itemPool i :=
      fun i hi => update_of_ne hi _ _
    have hself : update s.cache.itemPool s.cache.poolSize { obj := default } s.cache.poolSize =
        { obj := default } := update_self ..
    dsimp only
    refine ⟨hdead, ?_, congrArg LruItem.next hself, congrArg LruItem.prev hself, hother,
      fun i hi => ?_, fun i hi => absurd hi not_mem_nil, nodup_nil⟩
    · refine Ring.congr hL.lists rfl rfl (fun i hi => ?_) fun i hi => ?_
      · exact congrArg LruItem.next (hother i (hne i hi))
      · exact congrArg LruItem.prev (hother i (hne i hi))
    · rcases hi with hi | rfl
      · exact Nat.lt_succ_of_lt (h.live_lt i hi)
      · exact Nat.lt_succ_self _
  | cons id rest =>
    have hmem : id ∈ s.cache.freeItems := by
      rw [hfree]
      exact mem_cons_self
    have hnodup := h.free_nodup
    rw [hfree, nodup_cons] at hnodup
    obtain ⟨hdead, hlt⟩ := h.freeItems id hmem
    have hne : ∀ i ∈ L, i ≠ id := fun i hi e => (hL.mem i).mp hi (by rw [e, hdead])
    have hother : ∀ i, i ≠ id → (({ s.cache with freeItems := rest } : LeastRecentlyUsedCache Obj).modifyItem
        id fun item => { item with next := none, prev := none }).itemPool i = s.cache.itemPool i :=
      fun i hi => update_of_ne hi _ _
    have hself : (({ s.cache with freeItems := rest } : LeastRecentlyUsedCache Obj).modifyItem
        id fun item => { item with next := none, prev := none }).itemPool id =
          { s.cache.itemPool id with next := none, prev := none } := update_self ..
    dsimp only
    refine ⟨hdead, ?_, congrArg LruItem.next hself, congrArg LruItem.prev hself, hother,
      fun i hi => ?_, fun i hi => ?_, hnodup.2⟩
    · refine Ring.congr hL.lists rfl rfl (fun i hi => ?_) fun i hi => ?_
      · exact congrArg LruItem.next (hother i (hne i hi))
      · exact congrArg LruItem.prev (hother i (hne i hi))
    · rcases hi with hi | rfl
      · exact h.live_lt i hi
      · exact hlt
    · have hi' : i ∈ s.cache.freeItems := by
        rw [hfree]
        exact mem_cons_of_mem id hi
      obtain ⟨h1, h2⟩ := h.freeItems i hi'
      exact ⟨⟨h1, fun e => hnodup.1 (by rwa [← e])⟩, h2⟩

/-- `Insert` keeps the invariant: the new item is the last one. -/
theorem Inv.insert {obj : Obj} (h : s.Inv) (hnow : s.now ≤ t) (hlt : t < 2 ^ 64) :
    (s.step (.insert obj t)).2.Inv := by
  obtain ⟨L, hL⟩ := h.listed
  have hbuild := h.build hL
  rw [step, LeastRecentlyUsedCache.insert]
  generalize s.cache.build = b at hbuild ⊢
  obtain ⟨id, c⟩ := b
  dsimp only at hbuild ⊢
  obtain ⟨hdead, hlists, hnext, hprev, hpool, hsize, hfree, hnodup⟩ := hbuild
  have hid : id ∉ L := fun hm => (hL.mem id).mp hm hdead
  have hlinks := LeastRecentlyUsedCache.links_setItem c id
    (f := fun item => { item with obj := obj, tick := t }) (fun _ => rfl) fun _ => rfl
  have hlists' : (c.modifyItem id fun item => { item with obj := obj, tick := t }).Lists L := by
    rw [LeastRecentlyUsedCache.Lists, hlinks.1, hlinks.2]
    exact hlists
  obtain ⟨hattached, hsame⟩ := LeastRecentlyUsedCache.attach_links hlists' hid
    fun _ => ⟨by rw [hlinks.1, hnext], by rw [hlinks.2, hprev]⟩
  have hself : (c.modifyItem id fun item => { item with obj := obj, tick := t }).itemPool id =
      { c.itemPool id with obj := obj, tick := t } := LeastRecentlyUsedCache.itemPool_modifyItem_self
  have hother : ∀ i, i ≠ id → (c.modifyItem id fun item => { item with obj := obj, tick := t }).itemPool i =
      s.cache.itemPool i :=
    fun i hi => (LeastRecentlyUsedCache.itemPool_modifyItem_ne hi).trans (hpool i hi)
  generalize hc : c.modifyItem id (fun item => { item with obj := obj, tick := t }) = c' at *
  have htick : ∀ i, i ≠ id → ((c'.attach id).itemPool i).tick = s.tick i := fun i hi => by
    rw [hsame.tick, hother i hi, tick]
  have hticked : ((c'.attach id).itemPool id).tick = t := by rw [hsame.tick, hself]
  have hne : ∀ i ∈ L, i ≠ id := fun i hi e => hid (by rwa [← e])
  have hpoolSize : (c'.attach id).poolSize = c.poolSize := by rw [hsame.poolSize, ← hc]; rfl
  have hfreeItems : (c'.attach id).freeItems = c.freeItems := by rw [hsame.freeItems, ← hc]; rfl
  refine ⟨⟨L ++ [id], hattached, fun i => ?_, fun i hi => ?_, ?_⟩, fun i hi => ?_, hlt, fun i hi => ?_,
    fun i hi => ?_, ?_⟩
  · rw [mem_append, mem_singleton]
    by_cases e : i = id
    · rw [e]
      refine iff_of_true (.inr rfl) ?_
      dsimp only
      rw [update_self]
      exact some_ne_none obj
    · dsimp only
      rw [update_of_ne e, ← hL.mem]
      exact ⟨fun hi => hi.resolve_right e, .inl⟩
  · dsimp only
    rcases mem_append.mp hi with hi | hi
    · rw [update_of_ne (hne i hi), hsame.obj, hother i (hne i hi)]
      exact hL.obj i hi
    · obtain rfl := mem_singleton.mp hi
      rw [update_self, hsame.obj, hself]
  · refine pairwise_append.mpr ⟨?_, pairwise_singleton _ _, fun i hi j hj => ?_⟩
    · refine hL.sorted.imp_of_mem fun hi hj hle => ?_
      rw [tick, tick, htick _ (hne _ hi), htick _ (hne _ hj)]
      exact hle
    · rw [mem_singleton.mp hj, tick, tick, htick i (hne i hi), hticked]
      exact Nat.le_trans (h.tick_le i ((hL.mem i).mp hi)) hnow
  · rw [tick]
    by_cases e : i = id
    · rw [e, hticked]
    · dsimp only at hi ⊢
      rw [update_of_ne e] at hi
      rw [htick i e]
      exact Nat.le_trans (h.tick_le i hi) hnow
  · dsimp only at hi ⊢
    rw [hpoolSize]
    by_cases e : i = id
    · exact hsize i (.inr e)
    · rw [update_of_ne e] at hi
      exact hsize i (.inl hi)
  · dsimp only at hi ⊢
    rw [hfreeItems] at hi
    obtain ⟨⟨hdead', hne'⟩, hlt'⟩ := hfree i hi
    rw [update_of_ne hne', hpoolSize]
    exact ⟨hdead', hlt'⟩
  · dsimp only
    rw [hfreeItems]
    exact hnodup

/-- `Touch` keeps the invariant: the item becomes the last one. -/
theorem Inv.touch (h : s.Inv) (hlive : s.live id ≠ none) (hnow : s.now ≤ t) (hlt : t < 2 ^ 64) :
    (s.step (.touch id t)).2.Inv := by
  obtain ⟨L, hL⟩ := h.listed
  rw [step, LeastRecentlyUsedCache.touch]
  dsimp only
  split
  · -- the item has this tick already
    exact ⟨⟨L, hL.lists, hL.mem, hL.obj, hL.sorted⟩, fun i hi => Nat.le_trans (h.tick_le i hi) hnow, hlt,
      h.live_lt, h.freeItems, h.free_nodup⟩
  have hlinks := LeastRecentlyUsedCache.links_setItem s.cache id
    (f := fun item => { item with tick := t }) (fun _ => rfl) fun _ => rfl
  have hlists : (s.cache.modifyItem id fun item => { item with tick := t }).Lists L := by
    rw [LeastRecentlyUsedCache.Lists, hlinks.1, hlinks.2]
    exact hL.lists
  have hobj : ∀ i, ((s.cache.modifyItem id fun item => { item with tick := t }).itemPool i).obj =
      (s.cache.itemPool i).obj := by
    intro i
    by_cases e : i = id
    · rw [e, LeastRecentlyUsedCache.itemPool_modifyItem_self]
    · rw [LeastRecentlyUsedCache.itemPool_modifyItem_ne e]
  have hticked : ((s.cache.modifyItem id fun item => { item with tick := t }).itemPool id).tick = t := by
    rw [LeastRecentlyUsedCache.itemPool_modifyItem_self]
  have htick : ∀ i, i ≠ id →
      ((s.cache.modifyItem id fun item => { item with tick := t }).itemPool i).tick = s.tick i := by
    intro i hi
    rw [LeastRecentlyUsedCache.itemPool_modifyItem_ne hi, tick]
  have hpoolSize : (s.cache.modifyItem id fun item => { item with tick := t }).poolSize =
      s.cache.poolSize := rfl
  have hfreeItems : (s.cache.modifyItem id fun item => { item with tick := t }).freeItems =
      s.cache.freeItems := rfl
  generalize s.cache.modifyItem id (fun item => { item with tick := t }) = c at *
  obtain ⟨A, B, rfl⟩ := append_of_mem ((hL.mem id).mpr hlive)
  have hnodup := nodup_middle.mp hL.lists.nodup
  have hrest : ∀ i ∈ A ++ B, i ≠ id ∧ i ∈ A ++ id :: B := fun i hi =>
    ⟨fun e => hnodup.notMem (by rwa [← e]), by
      rcases mem_append.mp hi with hi | hi
      · exact mem_append_left _ hi
      · exact mem_append_right _ (mem_cons_of_mem id hi)⟩
  -- with the item at the end, the ticks are in order
  have hlast : ∀ c' : LeastRecentlyUsedCache Obj, c'.Lists (A ++ B ++ [id]) →
      LeastRecentlyUsedCache.SameItems c c' → Inv ⟨c', s.live, t⟩ := by
    intro c' hlists' hsame
    have hmem : ∀ i, i ∈ A ++ B ++ [id] ↔ i ∈ A ++ id :: B := fun i => by
      rw [append_assoc, mem_append, mem_append, mem_append, mem_singleton, mem_cons, or_comm (a := i ∈ B)]
    refine ⟨⟨A ++ B ++ [id], hlists', fun i => (hmem i).trans (hL.mem i), fun i hi => ?_, ?_⟩,
      fun i hi => ?_, hlt, fun i hi => ?_, fun i hi => ?_, ?_⟩
    · dsimp only
      rw [hsame.obj, hobj]
      exact hL.obj i ((hmem i).mp hi)
    · refine pairwise_append.mpr ⟨?_, pairwise_singleton _ _, fun i hi j hj => ?_⟩
      · have hsorted : (A ++ B).Pairwise fun i j => s.tick i ≤ s.tick j :=
          hL.sorted.sublist (List.Sublist.append_left (sublist_cons_self id B) A)
        refine hsorted.imp_of_mem fun hi hj hle => ?_
        rw [tick, tick, hsame.tick, hsame.tick, htick _ (hrest _ hi).1, htick _ (hrest _ hj).1]
        exact hle
      · rw [mem_singleton.mp hj, tick, tick, hsame.tick, hsame.tick, htick i (hrest i hi).1, hticked]
        exact Nat.le_trans (h.tick_le i ((hL.mem i).mp (hrest i hi).2)) hnow
    · rw [tick, hsame.tick]
      by_cases e : i = id
      · rw [e, hticked]
      · rw [htick i e]
        exact Nat.le_trans (h.tick_le i hi) hnow
    · dsimp only
      rw [hsame.poolSize, hpoolSize]
      exact h.live_lt i hi
    · dsimp only at hi ⊢
      rw [hsame.freeItems, hfreeItems] at hi
      rw [hsame.poolSize, hpoolSize]
      exact h.freeItems i hi
    · dsimp only
      rw [hsame.freeItems, hfreeItems]
      exact h.free_nodup
  have hlastItem : c.lastItem = (A ++ id :: B).getLast? := hlists.prev_none
  split
  · rename_i hend
    rw [hlastItem, List.getLast?_append_of_ne_nil _ (cons_ne_nil id B)] at hend
    cases B with
    | nil =>
      rw [append_nil] at hlast
      exact hlast c hlists (.refl c)
    | cons b B =>
      rw [List.getLast?_cons_cons] at hend
      have hB : id ∈ b :: B := mem_of_getLast? hend
      exact absurd (mem_append_right A hB) hnodup.notMem
  · rename_i hend
    obtain ⟨hlists', hsame⟩ := hlists.detach
    obtain ⟨hattached, hsame'⟩ := LeastRecentlyUsedCache.attach_links hlists' hnodup.notMem fun hnil => by
      obtain ⟨rfl, rfl⟩ := append_eq_nil_iff.mp hnil
      exact absurd hlastItem hend
    exact hlast _ hattached (hsame.trans hsame')

/-- `Free` keeps the invariant. -/
theorem Inv.free (h : s.Inv) (hlive : s.live id ≠ none) : (s.step (.free id)).2.Inv := by
  obtain ⟨L, hL⟩ := h.listed
  obtain ⟨A, B, rfl⟩ := append_of_mem ((hL.mem id).mpr hlive)
  obtain ⟨hlists, hobj, htick, hpoolSize, hfreeItems⟩ := hL.lists.free
  have hnodup := nodup_middle.mp hL.lists.nodup
  have hrest : ∀ i, i ∈ A ++ B ↔ i ≠ id ∧ i ∈ A ++ id :: B := by
    intro i
    simp only [mem_append, mem_cons]
    constructor
    · intro hi
      refine ⟨fun e => hnodup.notMem (by rw [← e]; exact mem_append.mpr hi), ?_⟩
      exact hi.imp_right .inr
    · intro ⟨hne, hi⟩
      exact hi.imp_right fun h => h.resolve_left hne
  have hlive' : ∀ i, update s.live id none i ≠ none ↔ i ≠ id ∧ s.live i ≠ none := by
    intro i
    by_cases e : i = id
    · rw [e, update_self]
      exact iff_of_false (fun h => h rfl) fun h => h.1 rfl
    · rw [update_of_ne e]
      exact (and_iff_right e).symm
  rw [step]
  refine ⟨⟨A ++ B, hlists, fun i => ?_, fun i hi => ?_, ?_⟩, fun i hi => ?_, h.now_lt, fun i hi => ?_,
    fun i hi => ?_, ?_⟩
  · dsimp only
    rw [hrest, hlive', hL.mem]
  · obtain ⟨hne, hmem⟩ := (hrest i).mp hi
    dsimp only
    rw [update_of_ne hne, hobj]
    exact hL.obj i hmem
  · have hsorted : (A ++ B).Pairwise fun i j => s.tick i ≤ s.tick j :=
      hL.sorted.sublist (List.Sublist.append_left (sublist_cons_self id B) A)
    refine hsorted.imp fun hle => ?_
    rw [tick, tick, htick, htick]
    exact hle
  · rw [tick]
    dsimp only
    rw [htick]
    exact h.tick_le i ((hlive' i).mp hi).2
  · dsimp only
    rw [hpoolSize]
    exact h.live_lt i ((hlive' i).mp hi).2
  · dsimp only at hi ⊢
    rw [hfreeItems] at hi
    rw [hpoolSize]
    rcases mem_append.mp hi with hi | hi
    · obtain ⟨hdead, hlt⟩ := h.freeItems i hi
      refine ⟨?_, hlt⟩
      by_contra hn
      exact ((hlive' i).mp hn).2 hdead
    · rw [mem_singleton.mp hi, update_self]
      exact ⟨rfl, h.live_lt id hlive⟩
  · dsimp only
    rw [hfreeItems]
    refine List.Nodup.append h.free_nodup (nodup_singleton id) ?_
    intro i hi hi'
    rw [mem_singleton.mp hi'] at hi
    exact hlive (h.freeItems id hi).1

theorem step_inv {op : LruOp Obj} (h : s.Inv) (hallowed : s.Allowed op) : (s.step op).2.Inv := by
  cases op with
  | insert obj tick => exact h.insert hallowed.1 hallowed.2
  | touch id tick => exact h.touch hallowed.1 hallowed.2.1 hallowed.2.2
  | free id => exact h.free hallowed

theorem run_inv {ops : List (LruOp Obj)} (hrun : AllSteps step Allowed (start : LruRun Obj) ops) :
    (after step start ops).Inv :=
  hrun.after Inv (fun _ _ h hallowed => step_inv h hallowed) inv_start

/-! ## 6. The visits -/

omit [Inhabited Obj]

open LeastRecentlyUsedCache (toS64 within)

end LruRun

end Yuzu.Common
