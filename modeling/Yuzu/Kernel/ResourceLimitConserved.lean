/-
  File:      Yuzu/Kernel/ResourceLimitConserved.lean
  Subject:   Resource limits are conserved, and no ASSERT of `KResourceLimit` fails, in every run of
             its users.

  * `Ordered`: hint, current value, peak and limit of each resource stand in this order.
  * `Moves`: what a section adds to the current value and the hint of one resource.
  * `Conserved`: the books. The current value is the total of the reservations outstanding, the hint
    the total of those whose hint is still held.
-/
import Yuzu.Kernel.ResourceLimit

namespace Yuzu.Kernel

open List Function

variable {r r' : KResourceLimit} {which w : LimitableResource} {value hint timeout tick : Int64}

/-! ## 1. What each section does to the values -/

/-- The values of each resource stand in order. -/
structure KResourceLimit.Ordered (r : KResourceLimit) : Prop where
  hint_nonneg : ∀ w, 0 ≤ (r.currentHints w).toInt
  hint_le : ∀ w, (r.currentHints w).toInt ≤ (r.currentValues w).toInt
  current_le : ∀ w, (r.currentValues w).toInt ≤ (r.peakValues w).toInt
  peak_le : ∀ w, (r.peakValues w).toInt ≤ (r.limitValues w).toInt

/-- The current value and the hint of one resource move by these amounts, those of the others stay. -/
def Moves (r r' : KResourceLimit) (which : LimitableResource) (dValue dHint : Int) : Prop :=
  ∀ w, (r'.currentValues w).toInt = (r.currentValues w).toInt + (if w = which then dValue else 0) ∧
    (r'.currentHints w).toInt = (r.currentHints w).toInt + (if w = which then dHint else 0)

theorem Moves.none (hc : r'.currentValues = r.currentValues) (hh : r'.currentHints = r.currentHints) :
    Moves r r' which 0 0 := by
  intro w
  rw [hc, hh, ite_self]
  omega

namespace KResourceLimit

theorem Ordered.current_nonneg (h : r.Ordered) (w : LimitableResource) :
    0 ≤ (r.currentValues w).toInt := Int.le_trans (h.hint_nonneg w) (h.hint_le w)

theorem Ordered.current_le_limit (h : r.Ordered) (w : LimitableResource) :
    (r.currentValues w).toInt ≤ (r.limitValues w).toInt := Int.le_trans (h.current_le w) (h.peak_le w)

theorem ordered_new : new.Ordered :=
  ⟨fun _ => Int.le_refl 0, fun _ => Int.le_refl 0, fun _ => Int.le_refl 0, fun _ => Int.le_refl 0⟩

theorem Ordered.getterAsserts (h : r.Ordered) (hv : 0 ≤ value.toInt) :
    r.getterAsserts which value = some () := by
  have hc := h.current_le_limit which
  have hh := h.hint_le which
  unfold KResourceLimit.getterAsserts
  rw [assert_bind_of (by rwa [Int64.le_iff_toInt_le]), assert_bind_of (by rwa [Int64.le_iff_toInt_le])]
  exact if_pos (by rwa [Int64.le_iff_toInt_le])

theorem Ordered.setLimitValue (h : r.Ordered) :
    (r.setLimitValue which value).2.Ordered ∧ Moves r (r.setLimitValue which value).2 which 0 0 := by
  unfold KResourceLimit.setLimitValue
  split
  · next hle =>
      rw [Int64.le_iff_toInt_le] at hle
      refine ⟨⟨h.hint_nonneg, h.hint_le, ?_, ?_⟩, Moves.none rfl rfl⟩
      · intro w
        by_cases hw : w = which
        · subst hw
          simp
        · simpa [hw] using h.current_le w
      · intro w
        by_cases hw : w = which
        · subst hw
          simpa using hle
        · simpa [hw] using h.peak_le w
  · exact ⟨h, Moves.none rfl rfl⟩

/-- A section of `Reserve` has gone through: it reserved, or it changed no value. -/
def Reserving (r : KResourceLimit) (which : LimitableResource) (value : Int64) :
    Reserve × KResourceLimit → Prop
  | (.reserved, r') => r'.Ordered ∧ Moves r r' which value.toInt value.toInt
  | (_, r') => r'.Ordered ∧ Moves r r' which 0 0

/-- **The loop of `Reserve`**: no assertion fails and no addition overflows, whatever the request. -/
theorem Ordered.reserveTurn (h : r.Ordered) (hv : 0 ≤ value.toInt) :
    ∃ done, r.reserveTurn which value timeout tick = some done ∧ r.Reserving which value done := by
  have hc := h.current_le_limit which
  have hh := h.hint_le which
  have hn := h.hint_nonneg which
  have hcn := h.current_nonneg which
  unfold KResourceLimit.reserveTurn
  rw [assert_bind_of (by rwa [Int64.le_iff_toInt_le]), assert_bind_of (by rwa [Int64.le_iff_toInt_le])]
  split
  · exact ⟨_, rfl, h, Moves.none rfl rfl⟩
  · next hguard =>
      obtain ⟨hpos, hsum⟩ := wrappingAdd_guard hcn hv hguard
      obtain ⟨sum, hadd, hsumv⟩ := addS64_of_lt hcn hv hsum
      obtain ⟨hintSum, hhadd, hhintv⟩ := addS64_of_lt hn hv (by omega)
      rw [hadd, hhadd]
      simp only [Option.bind_eq_bind, Option.bind_some, Option.pure_def]
      split
      · next hfits =>
          rw [Int64.le_iff_toInt_le] at hfits
          refine ⟨_, rfl, ⟨?_, ?_, ?_, ?_⟩, ?_⟩
          · intro w
            by_cases hw : w = which
            · subst hw
              simp only [update_self]
              omega
            · simpa [hw] using h.hint_nonneg w
          · intro w
            by_cases hw : w = which
            · subst hw
              simp only [update_self]
              omega
            · simpa [hw] using h.hint_le w
          · intro w
            by_cases hw : w = which
            · subst hw
              simp only [update_self, toInt_maxS64]
              omega
            · simpa [hw] using h.current_le w
          · intro w
            by_cases hw : w = which
            · subst hw
              have := h.peak_le w
              simp only [update_self, toInt_maxS64]
              omega
            · simpa [hw] using h.peak_le w
          · intro w
            by_cases hw : w = which
            · subst hw
              simp only [update_self, if_true]
              omega
            · simp [hw]
      · split
        · exact ⟨_, rfl, ⟨h.hint_nonneg, h.hint_le, h.current_le, h.peak_le⟩, Moves.none rfl rfl⟩
        · exact ⟨_, rfl, h, Moves.none rfl rfl⟩

theorem Ordered.reserve (h : r.Ordered) (hv : 0 ≤ value.toInt) :
    ∃ done, r.reserve which value timeout tick = some done ∧ r.Reserving which value done := by
  have hh := h.hint_le which
  unfold KResourceLimit.reserve
  rw [assert_bind_of (by rwa [Int64.le_iff_toInt_le]), assert_bind_of (by rwa [Int64.le_iff_toInt_le])]
  split
  · exact ⟨_, rfl, h, Moves.none rfl rfl⟩
  · exact h.reserveTurn hv

theorem Ordered.reserveResume (h : r.Ordered) (hv : 0 ≤ value.toInt) :
    ∃ done, r.reserveResume which value timeout tick = some done ∧ r.Reserving which value done := by
  have h' : Ordered { r with waiterCount := r.waiterCount - 1 } :=
    ⟨h.hint_nonneg, h.hint_le, h.current_le, h.peak_le⟩
  obtain ⟨done, hrun, hdone⟩ := @KResourceLimit.Ordered.reserveTurn _ which _ timeout tick h' hv
  refine ⟨done, hrun, ?_⟩
  -- the waiter count is not among the values
  rcases done with ⟨end_, r'⟩
  cases end_ <;> exact hdone

/-- `Release` of no more than there is. -/
theorem Ordered.release (h : r.Ordered) (hv : 0 ≤ value.toInt) (hhint : 0 ≤ hint.toInt)
    (hvle : value.toInt ≤ (r.currentValues which).toInt)
    (hhle : hint.toInt ≤ (r.currentHints which).toInt)
    (hkeep : (r.currentHints which).toInt - hint.toInt ≤ (r.currentValues which).toInt - value.toInt) :
    ∃ r', r.release which value hint = some r' ∧ r'.Ordered ∧
      Moves r r' which (-value.toInt) (-hint.toInt) := by
  have hc := h.current_le_limit which
  have hh := h.hint_le which
  obtain ⟨current, hsub, hcur⟩ := subS64_of_le hv hvle
  obtain ⟨currentHint, hhsub, hhcur⟩ := subS64_of_le hhint hhle
  unfold KResourceLimit.release
  rw [assert_bind_of (by rwa [Int64.le_iff_toInt_le]), assert_bind_of (by rwa [Int64.le_iff_toInt_le]),
    assert_bind_of (by rwa [Int64.le_iff_toInt_le]), assert_bind_of (by rwa [Int64.le_iff_toInt_le]),
    assert_bind_of (by rwa [Int64.le_iff_toInt_le]), assert_bind_of (by rwa [Int64.le_iff_toInt_le]),
    hsub, hhsub]
  refine ⟨_, rfl, ⟨?_, ?_, ?_, ?_⟩, ?_⟩
  · intro w
    by_cases hw : w = which
    · subst hw
      simp only [update_self]
      omega
    · simpa [hw] using h.hint_nonneg w
  · intro w
    by_cases hw : w = which
    · subst hw
      simp only [update_self]
      omega
    · simpa [hw] using h.hint_le w
  · intro w
    by_cases hw : w = which
    · subst hw
      have := h.current_le w
      simp only [update_self]
      omega
    · simpa [hw] using h.current_le w
  · exact h.peak_le
  · intro w
    by_cases hw : w = which
    · subst hw
      simp only [update_self, if_true]
      omega
    · simp [hw]

end KResourceLimit

/-! ## 2. The books -/

/-- What a reservation counts for in the current value of a resource. -/
def Reservation.counted (w : LimitableResource) (h : Reservation) : Int :=
  if w = h.which then h.value.toInt else 0

/-- What it counts for in the hint. -/
def Reservation.hinted (w : LimitableResource) (h : Reservation) : Int :=
  if w = h.which ∧ h.hintHeld = true then h.value.toInt else 0

namespace LimitUsers

variable {s s' : LimitUsers} {a : LimitAction} {i : Nat} {h : Reservation}

/-- **The books are in order.** -/
structure Conserved (s : LimitUsers) : Prop where
  ordered : s.limit.Ordered
  current_eq : ∀ w, (s.limit.currentValues w).toInt = total (·.counted w) s.outstanding
  hint_eq : ∀ w, (s.limit.currentHints w).toInt = total (·.hinted w) s.outstanding
  value_nonneg : ∀ h ∈ s.outstanding, 0 ≤ h.value.toInt
  waiting_nonneg : ∀ w ∈ s.waiting, 0 ≤ w.value.toInt

theorem conserved_start : start.Conserved where
  ordered := KResourceLimit.ordered_new
  current_eq _ := rfl
  hint_eq _ := rfl
  value_nonneg _ hh := absurd hh not_mem_nil
  waiting_nonneg _ hw := absurd hw not_mem_nil

/-- A call that reserved, or changed no value, and left the waiting calls as they are or waits itself. -/
theorem Conserved.afterReserve (hs : s.Conserved) {w : WaitingReserve} (hw : 0 ≤ w.value.toInt)
    {done : Reserve × KResourceLimit} (hdone : s.limit.Reserving w.which w.value done) :
    (s.afterReserve w done).Conserved := by
  obtain ⟨how, r'⟩ := done
  cases how with
  | reserved =>
    obtain ⟨hord, hmoves⟩ := hdone
    refine ⟨hord, ?_, ?_, ?_, hs.waiting_nonneg⟩
    · intro v
      have hv := (hmoves v).1
      have hc := hs.current_eq v
      show (r'.currentValues v).toInt = total _ (s.outstanding ++ [_])
      rw [total_append_singleton, hv, hc]
      rfl
    · intro v
      have hv := (hmoves v).2
      have hc := hs.hint_eq v
      show (r'.currentHints v).toInt = total _ (s.outstanding ++ [_])
      rw [total_append_singleton, hv, hc]
      simp only [Reservation.hinted, and_true]
    · intro h hh
      rcases mem_append.mp hh with hh | hh
      · exact hs.value_nonneg h hh
      · rw [mem_singleton.mp hh]
        exact hw
  | refused =>
    obtain ⟨hord, hmoves⟩ := hdone
    refine ⟨hord, fun v => ?_, fun v => ?_, hs.value_nonneg, hs.waiting_nonneg⟩
    · exact ((hmoves v).1.trans (by rw [ite_self, Int.add_zero])).trans (hs.current_eq v)
    · exact ((hmoves v).2.trans (by rw [ite_self, Int.add_zero])).trans (hs.hint_eq v)
  | waits =>
    obtain ⟨hord, hmoves⟩ := hdone
    refine ⟨hord, fun v => ?_, fun v => ?_, hs.value_nonneg, ?_⟩
    · exact ((hmoves v).1.trans (by rw [ite_self, Int.add_zero])).trans (hs.current_eq v)
    · exact ((hmoves v).2.trans (by rw [ite_self, Int.add_zero])).trans (hs.hint_eq v)
    · intro v hv
      rcases mem_append.mp hv with hv | hv
      · exact hs.waiting_nonneg v hv
      · rw [mem_singleton.mp hv]
        exact hw

/-- **A release**: of a reservation that stands in the books, in one of the three forms. `l` is what
the books say afterwards. -/
theorem Conserved.released (hs : s.Conserved) {value hint : Int64} (hv : 0 ≤ value.toInt)
    (hhint : 0 ≤ hint.toInt) {l : List Reservation}
    (hcount : ∀ w, total (·.counted w) l =
      total (·.counted w) s.outstanding + if w = h.which then -value.toInt else 0)
    (hhinted : ∀ w, total (·.hinted w) l =
      total (·.hinted w) s.outstanding + if w = h.which then -hint.toInt else 0)
    (hl : ∀ g ∈ l, 0 ≤ g.value.toInt) :
    ∃ r', s.limit.release h.which value hint = some r' ∧
      { s with limit := r', outstanding := l }.Conserved := by
  have hcur := hs.current_eq h.which
  have hhin := hs.hint_eq h.which
  have hc := hcount h.which
  have hh := hhinted h.which
  rw [if_pos rfl] at hc hh
  have hcn : 0 ≤ total (·.counted h.which) l := total_nonneg fun g hg => by
    have := hl g hg
    unfold Reservation.counted
    split <;> omega
  have hhn : 0 ≤ total (·.hinted h.which) l := total_nonneg fun g hg => by
    have := hl g hg
    unfold Reservation.hinted
    split <;> omega
  have hle : total (·.hinted h.which) l ≤ total (·.counted h.which) l := total_le_total fun g hg => by
    have := hl g hg
    unfold Reservation.hinted Reservation.counted
    split
    · next hw => rw [if_pos hw.1]
    · split <;> omega
  obtain ⟨r', hrun, hord, hmoves⟩ := @KResourceLimit.Ordered.release _ h.which _ _ hs.ordered
      hv hhint (by omega) (by omega) (by omega)
  refine ⟨r', hrun, hord, fun w => ?_, fun w => ?_, hl, hs.waiting_nonneg⟩
  · show (r'.currentValues w).toInt = total _ l
    rw [(hmoves w).1, hs.current_eq w, hcount w]
  · show (r'.currentHints w).toInt = total _ l
    rw [(hmoves w).2, hs.hint_eq w, hhinted w]

theorem value_nonneg_eraseIdx (hs : s.Conserved) (i : Nat) :
    ∀ g ∈ s.outstanding.eraseIdx i, 0 ≤ g.value.toInt :=
  fun g hg => hs.value_nonneg g (mem_of_mem_eraseIdx hg)

theorem total_counted_eraseIdx (hi : s.outstanding[i]? = some h) (w : LimitableResource) :
    total (·.counted w) (s.outstanding.eraseIdx i) =
      total (·.counted w) s.outstanding + if w = h.which then -h.value.toInt else 0 := by
  rw [total_eraseIdx hi, Reservation.counted]
  split <;> omega

/-! ## 3. Every section -/

/-- **Every disciplined section** goes through and leaves the books in order. -/
theorem Conserved.locked (hs : s.Conserved) (ha : s.Disciplined a) :
    ∃ s', s.locked a = some s' ∧ s'.Conserved := by
  have hord := hs.ordered
  cases a with
  | getLimitValue which =>
    have hlimit : 0 ≤ (s.limit.limitValues which).toInt :=
      Int.le_trans (hord.current_nonneg which) (hord.current_le_limit which)
    exact ⟨s, by simp [LimitUsers.locked, KResourceLimit.getLimitValue, hord.getterAsserts hlimit], hs⟩
  | getCurrentValue which =>
    have hcur := hord.current_nonneg which
    exact ⟨s, by simp [LimitUsers.locked, KResourceLimit.getCurrentValue, hord.getterAsserts hcur], hs⟩
  | getPeakValue which =>
    have hpeak : 0 ≤ (s.limit.peakValues which).toInt :=
      Int.le_trans (hord.current_nonneg which) (hord.current_le which)
    exact ⟨s, by simp [LimitUsers.locked, KResourceLimit.getPeakValue, hord.getterAsserts hpeak], hs⟩
  | getFreeValue which =>
    have hcur := hord.current_nonneg which
    obtain ⟨free, hfree, -⟩ := subS64_of_le hcur (hord.current_le_limit which)
    exact ⟨s, by
      simp [LimitUsers.locked, KResourceLimit.getFreeValue, hord.getterAsserts hcur, hfree], hs⟩
  | setLimitValue which value =>
    obtain ⟨hord', hmoves⟩ := @KResourceLimit.Ordered.setLimitValue _ which value hord
    refine ⟨_, rfl, hord', fun v => ?_, fun v => ?_, hs.value_nonneg, hs.waiting_nonneg⟩
    · exact ((hmoves v).1.trans (by rw [ite_self, Int.add_zero])).trans (hs.current_eq v)
    · exact ((hmoves v).2.trans (by rw [ite_self, Int.add_zero])).trans (hs.hint_eq v)
  | reserve which value timeout tick =>
    have hv : 0 ≤ value.toInt := Int64.le_iff_toInt_le.mp ha
    obtain ⟨done, hrun, hdone⟩ := @KResourceLimit.Ordered.reserve _ which _ timeout tick hord hv
    exact ⟨_, by simp [LimitUsers.locked, hrun], hs.afterReserve (w := ⟨which, value, timeout⟩) hv hdone⟩
  | resume i tick =>
    obtain ⟨w, hw⟩ : ∃ w, s.waiting[i]? = some w := ⟨_, List.getElem?_eq_getElem ha⟩
    have hv := hs.waiting_nonneg w (mem_of_getElem? hw)
    have hs' : { s with waiting := s.waiting.eraseIdx i }.Conserved :=
      ⟨hs.ordered, hs.current_eq, hs.hint_eq, hs.value_nonneg,
        fun v hv => hs.waiting_nonneg v (mem_of_mem_eraseIdx hv)⟩
    obtain ⟨done, hrun, hdone⟩ := @KResourceLimit.Ordered.reserveResume _ w.which _ w.timeout tick hord hv
    exact ⟨_, by simp [LimitUsers.locked, hw, hrun], hs'.afterReserve hv hdone⟩
  | release i =>
    obtain ⟨h, hi, hheld⟩ := ha
    have hv := hs.value_nonneg h (mem_of_getElem? hi)
    obtain ⟨r', hrun, hs'⟩ := hs.released (h := h) hv hv (total_counted_eraseIdx hi) (fun w => by
      rw [total_eraseIdx hi, Reservation.hinted, hheld]
      simp only [and_true]
      split <;> omega) (value_nonneg_eraseIdx hs i)
    exact ⟨_, by simp [LimitUsers.locked, hi, hrun], hs'⟩
  | releaseHint i =>
    obtain ⟨h, hi, hheld⟩ := ha
    have hv := hs.value_nonneg h (mem_of_getElem? hi)
    obtain ⟨r', hrun, hs'⟩ := hs.released (h := h) (l := s.outstanding.set i { h with hintHeld := false })
      (Int.le_refl (0 : Int64).toInt) hv (fun w => by
        rw [total_set hi]
        simp only [Reservation.counted, Int64.toInt_zero]
        split <;> omega) (fun w => by
        rw [total_set hi]
        simp only [Reservation.hinted, hheld, and_true]
        simp only [Bool.false_eq_true, and_false, if_false]
        split <;> omega) (fun g hg => by
        rcases mem_or_eq_of_mem_set hg with hg | rfl
        · exact hs.value_nonneg g hg
        · exact hv)
    exact ⟨_, by simp [LimitUsers.locked, hi, hrun], hs'⟩
  | releaseValue i =>
    obtain ⟨h, hi, hheld⟩ := ha
    have hv := hs.value_nonneg h (mem_of_getElem? hi)
    obtain ⟨r', hrun, hs'⟩ := hs.released (h := h) hv (Int.le_refl (0 : Int64).toInt) (total_counted_eraseIdx hi)
      (fun w => by
        rw [total_eraseIdx hi, Reservation.hinted, hheld]
        simp) (value_nonneg_eraseIdx hs i)
    exact ⟨_, by simp [LimitUsers.locked, hi, hrun], hs'⟩

/-- **Resource limits are conserved**: in every run of the users' sections, in any order, every section
goes through and the books are in order before it and after it. -/
theorem limits_conserved (as : List LimitAction) (hd : AllSteps step Disciplined start as) :
    AllSteps step (fun s a => s.Conserved ∧ (s.step a).1 = true) start as ∧
      (after step start as).Conserved := by
  have hstep : ∀ (s : LimitUsers) (a : LimitAction), s.Conserved → s.Disciplined a →
      (s.step a).1 = true ∧ (s.step a).2.Conserved := by
    intro s a hs ha
    obtain ⟨s', hrun, hs'⟩ := hs.locked ha
    have heq : s.step a = (true, s') := by simp only [step, hrun]
    rw [heq]
    exact ⟨rfl, hs'⟩
  refine ⟨hd.mono Conserved (fun s a _ hs ha => ?_) conserved_start, ?_⟩
  · exact ⟨⟨hs, (hstep s a hs ha).1⟩, (hstep s a hs ha).2⟩
  · exact hd.after Conserved (fun s a hs ha => (hstep s a hs ha).2) conserved_start

/-- A limit, a reservation, one that waits for its release, and the wake-up. -/
theorem limits_conserved_of_waiting :
    (after step start [.setLimitValue .threadCountMax 5, .reserve .threadCountMax 4 (-1) 0,
      .releaseHint 0, .reserve .threadCountMax 3 (-1) 0, .releaseValue 0, .resume 0 7]).Conserved :=
  (limits_conserved [.setLimitValue .threadCountMax 5, .reserve .threadCountMax 4 (-1) 0,
    .releaseHint 0, .reserve .threadCountMax 3 (-1) 0, .releaseValue 0, .resume 0 7]
    ⟨trivial, (by decide : (0 : Int64) ≤ 4), ⟨_, rfl, rfl⟩, (by decide : (0 : Int64) ≤ 3), ⟨_, rfl, rfl⟩,
      by simp only [Disciplined]; decide +kernel, trivial⟩).2

end LimitUsers

end Yuzu.Kernel
