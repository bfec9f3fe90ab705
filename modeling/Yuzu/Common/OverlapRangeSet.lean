/-
  File:      Yuzu/Common/OverlapRangeSet.lean
  Subject:   `OverlapRangeSet` (common/range_sets.inc) against the number of ranges that cover an
             address.

  The `boost::icl::split_interval_map` is a list of segments in increasing order. Its `operator+=` is a
  parameter (`plus`), and `SplitIntervalMap` states what the code relies on: values are added position by
  position, segments of value 0 are kept (`partial_enricher`), and segments are split at the ends of
  the interval. A value that leaves the range of `s32` is an undefined operation.
-/
import Yuzu.Lib.Assert
import Yuzu.Lib.SplitMap
import Mathlib.Data.List.Induction

namespace Yuzu.Common.OverlapRangeSet

open List Option

open SplitMap (OrderedFrom valueOf window)

/-! ## 1. The operations -/

/-- `split_interval_map<AddressType, s32, partial_enricher>`. -/
abbrev IntervalMap := List (Segment Int)

/-- What the code relies on in `m_split_ranges_set += (interval, value)`. -/
structure SplitIntervalMap (plus : IntervalMap → Nat → Nat → Int → IntervalMap) : Prop where
  ordered : ∀ s lower upper v, OrderedFrom 0 s → lower < upper → OrderedFrom 0 (plus s lower upper v)
  values : ∀ s lower upper v p, OrderedFrom 0 s → lower < upper → valueOf (plus s lower upper v) p =
      if lower ≤ p ∧ p < upper then some ((valueOf s p).getD 0 + v) else valueOf s p
  splits : ∀ s lower upper v, OrderedFrom 0 s → lower < upper → ∀ g ∈ plus s lower upper v,
    (lower ≤ g.lower ∧ g.upper ≤ upper) ∨ g.upper ≤ lower ∨ upper ≤ g.lower

def InS32 (v : Int) : Prop := -2 ^ 31 ≤ v ∧ v < 2 ^ 31

instance (v : Int) : Decidable (InS32 v) := inferInstanceAs (Decidable (_ ∧ _))

/-- `std::numeric_limits<s32>::max()`. -/
def s32Max : Int := 2 ^ 31 - 1

def endAddress (baseAddress size : Nat) : Nat := (baseAddress + size) % 2 ^ 64

section

variable (plus : IntervalMap → Nat → Nat → Int → IntervalMap)

def add (s : IntervalMap) (baseAddress size : Nat) : Option IntervalMap := do
  let s := plus s baseAddress (endAddress baseAddress size) 1
  assert (∀ g ∈ s, InS32 g.value)
  return s

/-- The `do` loop of `Subtract`: every scan erases the first segment of the interval that is spent.
The second part of the result is the list of calls of `on_delete`. -/
def removeSpent (hasOnDelete : Bool) (lower upper : Nat) (s : IntervalMap) :
    IntervalMap × List (Nat × Nat) :=
  match h : (window lower upper s).find? fun it => it.value ≤ 0 with
  | none => (s, [])
  | some it =>
    have hmem : it ∈ s := (dropWhile_sublist _).subset
      ((takeWhile_sublist _).subset (mem_of_find?_eq_some h))
    have : (s.erase it).length < s.length := by
      rw [length_erase_of_mem hmem]
      exact Nat.sub_lt (length_pos_of_mem hmem) Nat.one_pos
    let (rest, calls) := removeSpent hasOnDelete lower upper (s.erase it)
    (rest, if hasOnDelete ∧ it.value = 0 then (it.lower, it.upper) :: calls else calls)
termination_by s.length

/-- `OverlapRangeSetImpl::Subtract`. -/
def subtractAmount (hasOnDelete : Bool) (s : IntervalMap) (baseAddress size : Nat) (amount : Int) :
    Option (IntervalMap × List (Nat × Nat)) :=
  if s.isEmpty then some (s, [])
  else do
    let s := plus s baseAddress (endAddress baseAddress size) (-amount)
    assert (∀ g ∈ s, InS32 g.value)
    return removeSpent hasOnDelete baseAddress (endAddress baseAddress size) s

/-- `Subtract`. -/
def subtract (s : IntervalMap) (baseAddress size : Nat) :=
  subtractAmount plus false s baseAddress size 1

/-- `Subtract` with `on_delete`. -/
def subtractOnDelete (s : IntervalMap) (baseAddress size : Nat) :=
  subtractAmount plus true s baseAddress size 1

def deleteAll (s : IntervalMap) (baseAddress size : Nat) :=
  subtractAmount plus false s baseAddress size s32Max

end

/-- The calls of `ForEach`: a segment's ends and its value. -/
def forEach (s : IntervalMap) : List (Nat × Nat × Int) :=
  s.map fun it => (it.lower, it.upper, it.value)

/-! ## 2. Sequences of calls, and what they should count -/

inductive Kind where
  | add
  | subtract
  | subtractOnDelete
  | deleteAll
  deriving DecidableEq

structure Op where
  kind : Kind
  baseAddress : Nat
  size : Nat

/-- The addresses of the call's range. -/
def Op.Has (op : Op) (a : Nat) : Prop :=
  op.baseAddress ≤ a ∧ a < endAddress op.baseAddress op.size

instance (op : Op) (a : Nat) : Decidable (op.Has a) := inferInstanceAs (Decidable (_ ∧ _))

def Op.NonEmpty (op : Op) : Prop := op.baseAddress < endAddress op.baseAddress op.size

/-- A call, with the calls of `on_delete` it makes. -/
def step (plus : IntervalMap → Nat → Nat → Int → IntervalMap) (s : IntervalMap) (op : Op) :
    Option (IntervalMap × List (Nat × Nat)) :=
  match op.kind with
  | .add => (add plus s op.baseAddress op.size).map fun s => (s, [])
  | .subtract => subtract plus s op.baseAddress op.size
  | .subtractOnDelete => subtractOnDelete plus s op.baseAddress op.size
  | .deleteAll => deleteAll plus s op.baseAddress op.size

/-- A sequence of calls from the empty set on. -/
def run (plus : IntervalMap → Nat → Nat → Int → IntervalMap) (ops : List Op) : Option IntervalMap :=
  ops.foldlM (fun s op => (step plus s op).map Prod.fst) []

/-- The counts after a call: one more, one less but not below 0, or 0. -/
def Op.recount (op : Op) (count : Nat → Nat) (a : Nat) : Nat :=
  if op.Has a then
    match op.kind with
    | .add => count a + 1
    | .subtract => count a - 1
    | .subtractOnDelete => count a - 1
    | .deleteAll => 0
  else count a

/-- **The count of an address**: its `Add`s minus its effective `Subtract`s since the last
`DeleteAll`. -/
def coverage (ops : List Op) : Nat → Nat := ops.foldl (fun count op => op.recount count) fun _ => 0

/-- `ForEach` reports the counted addresses, each once and with its count. -/
structure Reports (calls : List (Nat × Nat × Int)) (count : Nat → Nat) : Prop where
  disjoint : calls.Pairwise fun c d => c.2.1 ≤ d.1
  exact : ∀ c ∈ calls, ∀ a, c.1 ≤ a → a < c.2.1 → c.2.2 = count a ∧ 0 < count a
  complete : ∀ a, 0 < count a → ∃ c ∈ calls, c.1 ≤ a ∧ a < c.2.1

/-- `on_delete` is called on disjoint segments, for the addresses of a set. -/
structure Deletes (calls : List (Nat × Nat)) (set : Nat → Prop) : Prop where
  nonEmpty : ∀ c ∈ calls, c.1 < c.2
  disjoint : calls.Pairwise fun c d => c.2 ≤ d.1
  union : ∀ a, (∃ c ∈ calls, c.1 ≤ a ∧ a < c.2) ↔ set a

/-! ## 3. The loop of `Subtract` -/

variable {plus : IntervalMap → Nat → Nat → Int → IntervalMap} {s s' : IntervalMap} {g : Segment Int}
  {lower upper a p : Nat} {hasOnDelete : Bool} {op : Op} {ops : List Op} {count : Nat → Nat}

/-- The segments the loop erases. -/
def Spent (lower upper : Nat) (g : Segment Int) : Prop := g.Meets lower upper ∧ g.value ≤ 0

instance (lower upper : Nat) (g : Segment Int) : Decidable (Spent lower upper g) :=
  inferInstanceAs (Decidable (_ ∧ _))

theorem find?_window {b : Nat} (hs : OrderedFrom b s) :
    ((window lower upper s).find? fun it => it.value ≤ 0) = s.find? fun g => Spent lower upper g := by
  rw [hs.window_eq, List.find?_filter]
  congr 1
  funext g
  rw [Bool.eq_iff_iff]
  simp only [decide_eq_true_eq]
  exact Iff.rfl

/-- **The loop leaves the segments that are not spent, and calls `on_delete` for the spent ones of
value 0, in their order.** -/
theorem removeSpent_eq {b : Nat} (hs : OrderedFrom b s) : removeSpent hasOnDelete lower upper s =
      (s.filter fun g => ¬Spent lower upper g,
        (s.filter fun g => Spent lower upper g ∧ hasOnDelete ∧ g.value = 0).map
          fun g => (g.lower, g.upper)) := by
  induction hn : s.length using Nat.strong_induction_on generalizing s with
  | _ n ih =>
  rw [removeSpent]
  split
  · rename_i hnone
    rw [find?_window hs, List.find?_eq_none] at hnone
    have hkeep : ∀ g ∈ s, ¬Spent lower upper g := by simpa using hnone
    rw [filter_eq_self.mpr (by simpa using hkeep), filter_eq_nil_iff.mpr]
    · rfl
    · intro g hg hspent
      exact hkeep g hg (by simp at hspent; exact hspent.1)
  · rename_i it hsome
    rw [find?_window hs, List.find?_eq_some_iff_append] at hsome
    obtain ⟨hspent, before, behind, rfl, hbefore⟩ := hsome
    have hspent : Spent lower upper it := by simpa using hspent
    have hbefore : ∀ g ∈ before, ¬Spent lower upper g := by simpa using hbefore
    have hnotin : it ∉ before := fun hin => hbefore it hin hspent
    have herase : (before ++ it :: behind).erase it = before ++ behind := by
      rw [erase_append_right _ hnotin, erase_cons_head]
    have hrest : OrderedFrom b (before ++ behind) :=
      hs.sublist ((sublist_cons_self it behind).append_left before)
    have hless : (before ++ behind).length < n := by
      rw [← hn, length_append, length_append, length_cons]
      omega
    have hnone : before.filter (fun g => Spent lower upper g ∧ hasOnDelete ∧ g.value = 0) = [] := by
      refine filter_eq_nil_iff.mpr fun g hg hp => hbefore g hg ?_
      exact (of_decide_eq_true hp).1
    dsimp only
    rw [herase, ih _ hless hrest rfl]
    simp only [filter_append, filter_cons, hspent, hnone, not_true, decide_false, true_and,
      nil_append, Bool.false_eq_true, if_false]
    by_cases hcall : hasOnDelete ∧ it.value = 0
    · simp [hcall]
    · simp [hcall]

/-! ## 4. One call -/

/-- **The map holds the counts**: an address lies in a segment when its count is not 0, and the
segment's value is the count. -/
structure Counts (s : IntervalMap) (count : Nat → Nat) : Prop where
  ordered : OrderedFrom 0 s
  value : ∀ p, valueOf s p = if count p = 0 then none else some (count p : Int)

theorem Counts.getD_value (h : Counts s count) (p : Nat) : (valueOf s p).getD 0 = (count p : Int) := by
  rw [h.value]
  split
  · rename_i hzero
    rw [hzero]
    rfl
  · rfl

theorem Counts.value_plus (h : Counts s count) (hplus : SplitIntervalMap plus) (hlt : lower < upper)
    (v : Int) (p : Nat) : valueOf (plus s lower upper v) p =
      if lower ≤ p ∧ p < upper then some ((count p : Int) + v) else valueOf s p := by
  rw [hplus.values s lower upper v p h.ordered hlt, h.getD_value]

theorem Counts.mem_plus (h : Counts s count) (hplus : SplitIntervalMap plus) (hlt : lower < upper)
    {v : Int} (hg : g ∈ plus s lower upper v) :
    (g.lower < g.upper) ∧ ∀ p, g.lower ≤ p → p < g.upper →
      if lower ≤ p ∧ p < upper then g.value = count p + v else g.value = count p ∧ 0 < count p := by
  have hordered := hplus.ordered s lower upper v h.ordered hlt
  refine ⟨(hordered.bounds hg).2, fun p hlow hhigh => ?_⟩
  have hvalue := hordered.valueOf_eq_some.mpr ⟨g, hg, ⟨hlow, hhigh⟩, rfl⟩
  rw [h.value_plus hplus hlt] at hvalue
  split
  · rename_i hin
    rw [if_pos hin] at hvalue
    exact (some.inj hvalue).symm
  · rename_i hout
    rw [if_neg hout, h.value] at hvalue
    split at hvalue
    · cases hvalue
    · rename_i hne
      exact ⟨(some.inj hvalue).symm, Nat.pos_of_ne_zero hne⟩

/-- The loop takes the addresses of the interval with values that are not positive out of the map. -/
theorem valueOf_filter_spent (hordered : OrderedFrom 0 s)
    (hsplits : ∀ g ∈ s, (lower ≤ g.lower ∧ g.upper ≤ upper) ∨ g.upper ≤ lower ∨ upper ≤ g.lower)
    {v : Int} : valueOf (s.filter fun g => ¬Spent lower upper g) p = some v ↔
      valueOf s p = some v ∧ ¬((lower ≤ p ∧ p < upper) ∧ v ≤ 0) := by
  rw [(hordered.sublist filter_sublist).valueOf_eq_some, hordered.valueOf_eq_some]
  -- the segment of an address meets the interval only if the address lies in it
  have hmeets : ∀ g ∈ s, g.lower ≤ p ∧ p < g.upper → (g.Meets lower upper ↔ lower ≤ p ∧ p < upper) := by
    intro g hg hp
    have hsplit := hsplits g hg
    rw [Segment.Meets]
    omega
  constructor
  · intro hex
    obtain ⟨g, hg, hp, rfl⟩ := hex
    obtain ⟨hg, hkeep⟩ := mem_filter.mp hg
    have hkeep : ¬Spent lower upper g := of_decide_eq_true hkeep
    rw [Spent, hmeets g hg hp] at hkeep
    exact ⟨⟨g, hg, hp, rfl⟩, hkeep⟩
  · intro hex
    obtain ⟨⟨g, hg, hp, rfl⟩, hkeep⟩ := hex
    refine ⟨g, mem_filter.mpr ⟨hg, decide_eq_true ?_⟩, hp, rfl⟩
    rw [Spent, hmeets g hg hp]
    exact hkeep

/-- **`Subtract`** takes the amount from the counts of the interval, down to 0, and calls `on_delete`
for the addresses whose count was the amount. -/
theorem subtractAmount_spec (hplus : SplitIntervalMap plus) (h : Counts s count)
    {baseAddress size amount : Nat} (hlt : baseAddress < endAddress baseAddress size)
    (hcount : ∀ a, (count a : Int) ≤ s32Max) (hamount : (amount : Int) ≤ s32Max)
    (hpos : 0 < amount) :
    ∃ s' calls, subtractAmount plus hasOnDelete s baseAddress size amount = some (s', calls) ∧
      Counts s' (fun a => if baseAddress ≤ a ∧ a < endAddress baseAddress size then count a - amount
        else count a) ∧
      Deletes calls fun a => hasOnDelete = true ∧
        (baseAddress ≤ a ∧ a < endAddress baseAddress size) ∧ count a = amount := by
  rw [subtractAmount]
  by_cases hempty : s.isEmpty
  · -- nothing is counted
    rw [if_pos hempty]
    have hnil : s = [] := isEmpty_iff.mp hempty
    have hzero : ∀ a, count a = 0 := by
      intro a
      have hvalue := h.value a
      rw [hnil] at hvalue
      split at hvalue
      · assumption
      · cases hvalue
    refine ⟨s, [], rfl, ⟨h.ordered, fun p => ?_⟩,
      fun c hc => absurd hc not_mem_nil, .nil, fun a => ?_⟩
    · rw [h.value, hzero]
      simp
    · rw [hzero]
      constructor
      · intro hex
        obtain ⟨c, hc, -⟩ := hex
        exact absurd hc not_mem_nil
      · intro hset
        omega
  · rw [if_neg hempty]
    generalize endAddress baseAddress size = upper at hlt ⊢
    have hordered := hplus.ordered s baseAddress upper (-amount) h.ordered hlt
    have hsplits := hplus.splits s baseAddress upper (-amount) h.ordered hlt
    have hvalue := h.value_plus hplus hlt (-amount)
    have hfits : ∀ g ∈ plus s baseAddress upper (-amount), InS32 g.value := by
      intro g hg
      obtain ⟨hne, hvalues⟩ := h.mem_plus hplus hlt hg
      have hlow := hvalues g.lower le_rfl hne
      have hmax := hcount g.lower
      simp only [s32Max] at hmax hamount
      rw [InS32]
      split at hlow <;> omega
    refine ⟨_, _, assert_bind_of hfits, ?_, ?_⟩
    · rw [removeSpent_eq hordered]
      refine ⟨hordered.sublist filter_sublist, fun p => Option.ext fun v => ?_⟩
      rw [valueOf_filter_spent hordered hsplits, hvalue p]
      by_cases hin : baseAddress ≤ p ∧ p < upper
      · simp only [hin, and_self, if_true, true_and, Option.some.injEq]
        split
        · simp only [reduceCtorEq, iff_false]
          omega
        · rw [Option.some.injEq]
          omega
      · simp only [hin, if_false, false_and, not_false_eq_true, and_true]
        rw [h.value]
    · rw [removeSpent_eq hordered]
      refine ⟨fun c hc => ?_, ?_, fun a => ?_⟩
      · obtain ⟨g, hg, rfl⟩ := mem_map.mp hc
        exact (hordered.bounds (mem_of_mem_filter hg)).2
      · exact List.Pairwise.map _ (fun _ _ hle => hle) (hordered.pairwise.sublist filter_sublist)
      · constructor
        · intro hex
          obtain ⟨c, hc, ha⟩ := hex
          obtain ⟨g, hg, rfl⟩ := mem_map.mp hc
          obtain ⟨hg, hspent⟩ := mem_filter.mp hg
          obtain ⟨⟨⟨hlow, hhigh⟩, -⟩, hdelete, hzero⟩ := of_decide_eq_true hspent
          have hsplit := hsplits g hg
          have hcounted := (h.mem_plus hplus hlt hg).2 a ha.1 ha.2
          rw [if_pos (by omega)] at hcounted
          exact ⟨hdelete, by omega, by omega⟩
        · intro hset
          obtain ⟨hdelete, hin, hamount⟩ := hset
          have hat := hvalue a
          rw [if_pos hin, hamount, Int.add_right_neg] at hat
          obtain ⟨g, hg, ha, hzero⟩ := hordered.valueOf_eq_some.mp hat
          have hspent : Spent baseAddress upper g := ⟨⟨by omega, by omega⟩, by omega⟩
          exact ⟨_, mem_map.mpr ⟨g, mem_filter.mpr ⟨hg, decide_eq_true ⟨hspent, hdelete, hzero⟩⟩, rfl⟩, ha⟩

theorem add_spec (hplus : SplitIntervalMap plus) (h : Counts s count) {baseAddress size : Nat}
    (hlt : baseAddress < endAddress baseAddress size)
    (hcount : ∀ a, (count a : Int) ≤ s32Max)
    (hafter : ∀ a, baseAddress ≤ a → a < endAddress baseAddress size → (count a : Int) < s32Max) :
    ∃ s', add plus s baseAddress size = some s' ∧
      Counts s' fun a => if baseAddress ≤ a ∧ a < endAddress baseAddress size then count a + 1
        else count a := by
  rw [add]
  generalize endAddress baseAddress size = upper at hlt hafter ⊢
  have hfits : ∀ g ∈ plus s baseAddress upper 1, InS32 g.value := by
    intro g hg
    obtain ⟨hne, hvalues⟩ := h.mem_plus hplus hlt hg
    have hlow := hvalues g.lower le_rfl hne
    have hmax := hcount g.lower
    rw [InS32]
    split at hlow
    · rename_i hin
      have hmax := hafter g.lower hin.1 hin.2
      simp only [s32Max] at hmax
      omega
    · simp only [s32Max] at hmax
      omega
  refine ⟨_, assert_bind_of hfits, hplus.ordered s baseAddress upper 1 h.ordered hlt, fun p => ?_⟩
  rw [h.value_plus hplus hlt]
  split
  · rw [if_neg (by omega)]
    rfl
  · exact h.value p

/-- **A call changes the counts as it should**, and calls `on_delete` for the counts that fall from 1
to 0. -/
theorem step_spec (hplus : SplitIntervalMap plus) (h : Counts s count) (hne : op.NonEmpty)
    (hcount : ∀ a, (count a : Int) ≤ s32Max) (hafter : ∀ a, (op.recount count a : Int) ≤ s32Max) :
    ∃ s' calls, step plus s op = some (s', calls) ∧ Counts s' (op.recount count) ∧
      Deletes calls fun a => op.kind = .subtractOnDelete ∧ count a = 1 ∧ op.recount count a = 0 := by
  obtain ⟨kind, baseAddress, size⟩ := op
  have hnever : ∀ {calls : List (Nat × Nat)} {set other : Nat → Prop},
      Deletes calls (fun a => false = true ∧ set a) → kind ≠ .subtractOnDelete →
      Deletes calls fun a => kind = .subtractOnDelete ∧ other a := by
    intro calls set other hcalls hkind
    exact ⟨hcalls.nonEmpty, hcalls.disjoint, fun a => (hcalls.union a).trans (by simp [hkind])⟩
  cases kind with
  | add =>
    have hroom : ∀ a, baseAddress ≤ a → a < endAddress baseAddress size → (count a : Int) < s32Max := by
      intro a hlow hhigh
      have ha := hafter a
      simp only [Op.recount, Op.Has, hlow, hhigh, and_self, if_true] at ha
      omega
    obtain ⟨s', hadd, hcounts⟩ := add_spec hplus h hne hcount hroom
    refine ⟨s', [], congrArg (Option.map fun s => (s, [])) hadd, hcounts,
      fun c hc => absurd hc not_mem_nil, .nil, fun a => ?_⟩
    simp
  | subtract =>
    obtain ⟨s', calls, hstep, hcounts, hcalls⟩ := @subtractAmount_spec plus s false count hplus h
      baseAddress size 1 hne hcount (by decide) Nat.one_pos
    exact ⟨s', calls, hstep, hcounts, hnever hcalls (by simp)⟩
  | subtractOnDelete =>
    obtain ⟨s', calls, hstep, hcounts, hcalls⟩ := @subtractAmount_spec plus s true count hplus h
      baseAddress size 1 hne hcount (by decide) Nat.one_pos
    refine ⟨s', calls, hstep, hcounts, hcalls.nonEmpty, hcalls.disjoint, fun a => ?_⟩
    rw [hcalls.union]
    show _ ↔ _ ∧ _ ∧ (if baseAddress ≤ a ∧ a < endAddress baseAddress size then count a - 1
      else count a) = 0
    simp only [true_and]
    split <;> omega
  | deleteAll =>
    have hmax : ∀ a, count a - (2 ^ 31 - 1) = 0 := by
      intro a
      have ha := hcount a
      simp only [s32Max] at ha
      omega
    obtain ⟨s', calls, hstep, hcounts, hcalls⟩ := @subtractAmount_spec plus s false count hplus h
      baseAddress size (2 ^ 31 - 1) hne hcount (by decide) (by decide)
    simp only [hmax] at hcounts
    exact ⟨s', calls, hstep, hcounts, hnever hcalls (by simp)⟩

/-! ## 5. Sequences of calls -/

theorem coverage_concat : coverage (ops ++ [op]) = op.recount (coverage ops) := by
  rw [coverage, foldl_append]
  rfl

theorem run_concat : run plus (ops ++ [op]) =
    (run plus ops).bind fun s => (step plus s op).map Prod.fst := by
  rw [run, foldlM_append]
  simp [run]

theorem run_spec (hplus : SplitIntervalMap plus) (hne : ∀ op ∈ ops, op.NonEmpty)
    (hfit : ∀ before, before <+: ops → ∀ a, (coverage before a : Int) ≤ s32Max) :
    ∃ s, run plus ops = some s ∧ Counts s (coverage ops) := by
  induction ops using List.reverseRecOn with
  | nil => exact ⟨[], rfl, trivial, fun p => rfl⟩
  | append_singleton ops op ih =>
    obtain ⟨s, hrun, hcounts⟩ := ih (fun o ho => hne o (mem_append_left _ ho))
      (fun before hbefore => hfit before (hbefore.trans (prefix_append _ _)))
    obtain ⟨s', calls, hstep, hcounts, -⟩ := step_spec hplus hcounts
      (hne op (mem_append_right _ mem_cons_self))
      (hfit ops (prefix_append _ _))
      (by rw [← coverage_concat]; exact hfit _ (prefix_refl _))
    refine ⟨s', ?_, coverage_concat ▸ hcounts⟩
    rw [run_concat, hrun, bind_some, hstep]
    rfl

theorem Counts.reports (h : Counts s count) : Reports (forEach s) count where
  disjoint := List.Pairwise.map _ (fun _ _ hle => hle) h.ordered.pairwise
  exact := by
    intro c hc a hlow hhigh
    obtain ⟨g, hg, rfl⟩ := mem_map.mp hc
    have hvalue := h.ordered.valueOf_eq_some.mpr ⟨g, hg, ⟨hlow, hhigh⟩, rfl⟩
    rw [h.value] at hvalue
    split at hvalue
    · cases hvalue
    · rename_i hne
      exact ⟨(some.inj hvalue).symm, Nat.pos_of_ne_zero hne⟩
  complete := by
    intro a ha
    have hvalue := h.value a
    rw [if_neg (by omega)] at hvalue
    obtain ⟨g, hg, hin, -⟩ := h.ordered.valueOf_eq_some.mp hvalue
    exact ⟨_, mem_map.mpr ⟨g, hg, rfl⟩, hin⟩

/-- **The range set counts coverage.** After every sequence of calls `ForEach` reports the counted
addresses with their counts, and a next call reports through `on_delete` the addresses whose count
it takes from 1 to 0, and no others. -/
theorem reports_coverage (hplus : SplitIntervalMap plus) (ops : List Op) (op : Op)
    (hne : ∀ o ∈ ops ++ [op], o.NonEmpty)
    (hfit : ∀ before, before <+: ops ++ [op] → ∀ a, (coverage before a : Int) ≤ s32Max) :
    ∃ s s' calls, run plus ops = some s ∧ step plus s op = some (s', calls) ∧
      Reports (forEach s) (coverage ops) ∧ Reports (forEach s') (coverage (ops ++ [op])) ∧
      (op.kind = .subtractOnDelete →
        Deletes calls fun a => coverage ops a = 1 ∧ coverage (ops ++ [op]) a = 0) ∧
      (op.kind ≠ .subtractOnDelete → calls = []) := by
  obtain ⟨s, hrun, hcounts⟩ := run_spec hplus (fun o ho => hne o (mem_append_left _ ho))
    (fun before hbefore => hfit before (hbefore.trans (prefix_append _ _)))
  obtain ⟨s', calls, hstep, hcounts', hcalls⟩ := step_spec hplus hcounts
    (hne op (mem_append_right _ mem_cons_self))
    (hfit ops (prefix_append _ _))
    (by rw [← coverage_concat]; exact hfit _ (prefix_refl _))
  rw [← coverage_concat] at hcounts' hcalls
  refine ⟨s, s', calls, hrun, hstep, hcounts.reports, hcounts'.reports, fun hkind => ?_,
    fun hkind => ?_⟩
  · exact ⟨hcalls.nonEmpty, hcalls.disjoint, fun a => (hcalls.union a).trans (by simp [hkind])⟩
  · refine eq_nil_iff_forall_not_mem.mpr fun c hc => ?_
    exact hkind ((hcalls.union c.1).mp ⟨c, hc, le_rfl, hcalls.nonEmpty c hc⟩).1

/-- `operator+=` on lists of segments. -/
def splitPlus (s : IntervalMap) (lower upper : Nat) (v : Int) : IntervalMap :=
  SplitMap.plus lower upper v s

theorem splitPlus_splitIntervalMap : SplitIntervalMap splitPlus where
  ordered s lower upper v hs hlt := SplitMap.plus_ordered hs (Nat.zero_le _) (by omega)
  values s lower upper v p hs _ := SplitMap.valueOf_plus hs
  splits s lower upper v hs hlt g hg :=
    SplitMap.plus_splits hs (Nat.zero_le _) (by omega) hg

theorem coverage_le_length (ops : List Op) (a : Nat) : coverage ops a ≤ ops.length := by
  induction ops using List.reverseRecOn with
  | nil => exact le_rfl
  | append_singleton ops op ih =>
    rw [coverage_concat, Op.recount, length_append, length_singleton]
    split
    · split <;> omega
    · omega

/-- Two ranges that overlap, and the overlap taken away from both. -/
theorem reports_coverage_overlap :
    let ops : List Op := [⟨.add, 0, 8⟩, ⟨.add, 4, 8⟩, ⟨.subtract, 2, 8⟩]
    let op : Op := ⟨.subtractOnDelete, 2, 8⟩
    ∃ s s' calls, run splitPlus ops = some s ∧ step splitPlus s op = some (s', calls) ∧
      Reports (forEach s) (coverage ops) ∧ Reports (forEach s') (coverage (ops ++ [op])) ∧
      (op.kind = .subtractOnDelete →
        Deletes calls fun a => coverage ops a = 1 ∧ coverage (ops ++ [op]) a = 0) ∧
      (op.kind ≠ .subtractOnDelete → calls = []) := by
  intro ops op
  refine reports_coverage splitPlus_splitIntervalMap ops op ?_ fun before hbefore a => ?_
  · simp [ops, op, Op.NonEmpty, endAddress]
  · have hle := coverage_le_length before a
    have hlength : before.length ≤ 4 := hbefore.length_le
    rw [s32Max]
    omega

/-- **The counter is an `s32`.** After `2 ^ 31 - 1` calls of `Add` for one range, one more overflows
it. -/
theorem run_overflow : run splitPlus (List.replicate (2 ^ 31) ⟨.add, 0, 8⟩) = none := by
  have hplus : ∀ n : Nat, splitPlus [⟨0, 8, (n : Int)⟩] 0 8 1 = [⟨0, 8, (n + 1 : Nat)⟩] := by
    intro n
    simp [splitPlus, SplitMap.plus, SplitMap.piece]
  have hadd : ∀ n : Nat, add splitPlus [⟨0, 8, (n : Int)⟩] 0 8 =
      if InS32 (n + 1 : Nat) then some [⟨0, 8, (n + 1 : Nat)⟩] else none := by
    intro n
    have hend : endAddress 0 8 = 8 := rfl
    rw [add, hend, hplus, assert]
    simp only [mem_singleton, forall_eq]
    split <;> rfl
  have hrun : ∀ n : Nat, n < 2 ^ 31 - 1 →
      run splitPlus (List.replicate (n + 1) ⟨.add, 0, 8⟩) = some [⟨0, 8, (n + 1 : Nat)⟩] := by
    intro n hn
    induction n with
    | zero => decide
    | succ n ih =>
      rw [replicate_succ', run_concat, ih (by omega), bind_some]
      dsimp only [step]
      rw [hadd, if_pos (by rw [InS32]; omega)]
      rfl
  obtain ⟨n, hn⟩ : ∃ n : Nat, n + 1 + 1 = 2 ^ 31 := ⟨2 ^ 31 - 2, rfl⟩
  rw [← hn, replicate_succ', run_concat, hrun _ (by omega), bind_some]
  dsimp only [step]
  rw [hadd, if_neg (by rw [InS32]; omega)]
  rfl

end Yuzu.Common.OverlapRangeSet
