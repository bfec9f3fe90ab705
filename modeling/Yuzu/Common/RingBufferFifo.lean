/-
  File:      Yuzu/Common/RingBufferFifo.lean
  Subject:   `RingBuffer` is a queue under every interleaving of its two threads.

  The words that the threads load are read back as natural numbers: the write index stands for the
  number of slots pushed, the read index for the number popped, both up to multiples of `2 ^ 64`.
  * `Threads.producer`, `Threads.consumer`: what a thread knows at each of its steps. A stale snapshot of the
    other side's index errs on the safe side, because that side only moves on.
  * `Inv`: the counts are at most the capacity apart, and the slots between them are in the buffer.
-/
import Mathlib.Data.List.TakeDrop
import Mathlib.Data.Int.ModEq
import Yuzu.Common.RingBuffer

namespace Yuzu.Common.RingBuffer

open List Function BitVec

variable {α : Type} {k : Nat}

/-! ## 1. Words and counts -/

/-- A capacity that `RingBuffer` accepts. -/
def Admissible (k : Nat) : Prop := 2 ^ k < (2 ^ 64 - 1) / 2

theorem toNat_wordMin (a b : Word) : (wordMin a b).toNat = min a.toNat b.toNat := by
  unfold wordMin
  split
  · next h =>
      have : b.toNat < a.toNat := h
      omega
  · next h =>
      have : ¬b.toNat < a.toNat := h
      omega

theorem toNat_capacity (hk : Admissible k) : (BitVec.ofNat 64 (2 ^ k)).toNat = 2 ^ k := by
  unfold Admissible at hk
  rw [toNat_ofNat]
  exact Nat.mod_eq_of_lt (by omega)

theorem two_pow_dvd (hk : Admissible k) : 2 ^ k ∣ 2 ^ 64 := by
  refine Nat.pow_dvd_pow 2 ?_
  by_contra hlt
  have h := Nat.pow_le_pow_right (n := 2) (by decide) (Nat.le_of_lt (Nat.lt_of_not_le hlt))
  unfold Admissible at hk
  omega

theorem toNat_index_sub {r w : Nat} (hrw : r ≤ w) (hlt : w < r + 2 ^ 64) :
    (BitVec.ofNat 64 w - BitVec.ofNat 64 r).toNat = w - r := by
  rw [toNat_sub, toNat_ofNat, toNat_ofNat]
  omega

theorem toNat_slotsFree (hk : Admissible k) {r w : Nat} (hrw : r ≤ w) (hw : w ≤ r + 2 ^ k) :
    (BitVec.ofNat 64 (2 ^ k) + BitVec.ofNat 64 r - BitVec.ofNat 64 w).toNat = r + 2 ^ k - w := by
  unfold Admissible at hk
  rw [← ofNat_add, toNat_index_sub (by omega) (by omega)]
  omega

theorem wrap_slot {pos i capacity n : Nat} (hpos : pos < capacity) (hn : n ≤ capacity) (hi : i < n) :
    (if i < min (capacity - pos) n then pos + i else i - min (capacity - pos) n) =
      (pos + i) % capacity := by
  split
  · exact (Nat.mod_eq_of_lt (by omega)).symm
  · have hsub : (pos + i - capacity) % capacity = pos + i - capacity := Nat.mod_eq_of_lt (by omega)
    rw [Nat.mod_eq_sub_mod (by omega), hsub]
    omega

/-- **The split copy**: the `i`-th slot of a copy that begins at an index is at the index plus `i`,
modulo the capacity. -/
theorem slot_planCopy (hk : Admissible k) {index i : Nat} {count : Word} (hc : count.toNat ≤ 2 ^ k)
    (hi : i < count.toNat) :
    (planCopy (BitVec.ofNat 64 (2 ^ k)) (BitVec.ofNat 64 index) count).slot i = (index + i) % 2 ^ k := by
  have hpos : (BitVec.ofNat 64 index % BitVec.ofNat 64 (2 ^ k)).toNat = index % 2 ^ k := by
    rw [toNat_umod, toNat_capacity hk, toNat_ofNat, Nat.mod_mod_of_dvd _ (two_pow_dvd hk)]
  have hlt : index % 2 ^ k < 2 ^ k := Nat.mod_lt _ (Nat.two_pow_pos k)
  have hfirst : (wordMin (BitVec.ofNat 64 (2 ^ k) - BitVec.ofNat 64 index % BitVec.ofNat 64 (2 ^ k))
      count).toNat = min (2 ^ k - index % 2 ^ k) count.toNat := by
    rw [toNat_wordMin, toNat_sub, hpos, toNat_capacity hk]
    unfold Admissible at hk
    congr 1
    omega
  simp only [planCopy, Copy.slot, hpos, hfirst]
  rw [wrap_slot hlt hc hi, Nat.mod_add_mod]

/-! ## 2. The invariant -/

/-- What the producer knows at each of its steps. -/
def Producer.Knows (k : Nat) (s : State α) : Producer α → Prop
  | .idle => True
  | .pushLoaded slots free writeIndex =>
    slots.length < 2 ^ 64 ∧ free + s.pushed.length ≤ s.popped.length + 2 ^ k ∧
      writeIndex = BitVec.ofNat 64 s.pushed.length
  | .pushCopying slots free writeIndex copy done =>
    writeIndex = BitVec.ofNat 64 s.pushed.length ∧
      (∃ count, copy = planCopy (BitVec.ofNat 64 (2 ^ k)) writeIndex count) ∧
      copy.count.toNat ≤ slots.length ∧ min slots.length free ≤ copy.count.toNat ∧
      s.pushed.length + copy.count.toNat ≤ s.popped.length + 2 ^ k ∧ done ≤ copy.count.toNat ∧
      ∀ i, i < done → slots[i]? = some (s.data ((s.pushed.length + i) % 2 ^ k))
  | .sizeLoaded .write value => value = BitVec.ofNat 64 s.pushed.length
  | .sizeLoaded .read value =>
    ∃ r, value = BitVec.ofNat 64 r ∧ r ≤ s.popped.length ∧ s.pushed.length ≤ r + 2 ^ k

/-- What the consumer knows at each of its steps. -/
def Consumer.Knows (k : Nat) (s : State α) : Consumer α → Prop
  | .idle => True
  | .popLoaded _ readIndex => readIndex = BitVec.ofNat 64 s.popped.length
  | .popCopying readIndex copy output =>
    readIndex = BitVec.ofNat 64 s.popped.length ∧
      (∃ count, copy = planCopy (BitVec.ofNat 64 (2 ^ k)) readIndex count) ∧
      s.popped.length + copy.count.toNat ≤ s.pushed.length ∧ output.length ≤ copy.count.toNat ∧
      output = (s.pushed.drop s.popped.length).take output.length
  | .sizeLoaded .read value => value = BitVec.ofNat 64 s.popped.length
  | .sizeLoaded .write value =>
    ∃ w, value = BitVec.ofNat 64 w ∧ w ≤ s.pushed.length ∧ s.popped.length ≤ w

/-- The state of the buffer at every step of a run. -/
structure Inv (k : Nat) (s : State α) : Prop where
  capacity_eq : s.capacity = BitVec.ofNat 64 (2 ^ k)
  readIndex_eq : s.readIndex = BitVec.ofNat 64 s.popped.length
  writeIndex_eq : s.writeIndex = BitVec.ofNat 64 s.pushed.length
  popped_le : s.popped.length ≤ s.pushed.length
  pushed_le : s.pushed.length ≤ s.popped.length + 2 ^ k
  popped_eq : s.popped = s.pushed.take s.popped.length
  unread : ∀ i, s.popped.length ≤ i → i < s.pushed.length → s.pushed[i]? = some (s.data (i % 2 ^ k))
  producer : s.producer.Knows k s
  consumer : s.consumer.Knows k s
  accepted : ∀ r ∈ s.pushes, min r.slotCount r.free ≤ r.pushCount
  sizes : ∀ v ∈ s.sizes, v.toNat ≤ 2 ^ k

theorem inv_initial (k : Nat) (data : Nat → α) : Inv k (initial k data) where
  capacity_eq := rfl
  readIndex_eq := rfl
  writeIndex_eq := rfl
  popped_le := Nat.le_refl _
  pushed_le := Nat.zero_le _
  popped_eq := rfl
  unread i _ hi := absurd hi (Nat.not_lt_zero i)
  producer := trivial
  consumer := trivial
  accepted _ hr := absurd hr not_mem_nil
  sizes _ hv := absurd hv not_mem_nil

/-! ## 3. What one side's steps leave to the other -/

variable {s s' : State α}

/-- What the producer knows stays true while the consumer goes on. -/
theorem Producer.Knows.mono {p : Producer α} (h : p.Knows k s) (hpushed : s'.pushed = s.pushed)
    (hdata : s'.data = s.data) (hpopped : s.popped.length ≤ s'.popped.length) : p.Knows k s' := by
  cases p with
  | idle => trivial
  | pushLoaded slots free writeIndex =>
    obtain ⟨hlen, hfree, hw⟩ := h
    refine ⟨hlen, ?_, ?_⟩
    · rw [hpushed]
      omega
    · rw [hpushed]
      exact hw
  | pushCopying slots free writeIndex copy done =>
    obtain ⟨hw, hcopy, hle, hmin, hroom, hdone, hslots⟩ := h
    refine ⟨?_, hcopy, hle, hmin, ?_, hdone, ?_⟩
    · rw [hpushed]
      exact hw
    · rw [hpushed]
      omega
    · rw [hpushed, hdata]
      exact hslots
  | sizeLoaded first value =>
    cases first with
    | write =>
      show value = _
      rw [hpushed]
      exact h
    | read =>
      obtain ⟨r, hr, hle, hroom⟩ := h
      refine ⟨r, hr, Nat.le_trans hle hpopped, ?_⟩
      rw [hpushed]
      exact hroom

/-- What the consumer knows stays true while the producer goes on. -/
theorem Consumer.Knows.mono {c : Consumer α} (h : c.Knows k s) (hpopped : s'.popped = s.popped)
    {more : List α} (hpushed : s'.pushed = s.pushed ++ more) : c.Knows k s' := by
  have hlen : s'.pushed.length = s.pushed.length + more.length := by
    rw [hpushed, length_append]
  cases c with
  | idle => trivial
  | popLoaded maxSlots readIndex =>
    show readIndex = _
    rw [hpopped]
    exact h
  | popCopying readIndex copy output =>
    obtain ⟨hr, hcopy, hfilled, hout, heq⟩ := h
    refine ⟨?_, hcopy, ?_, hout, ?_⟩
    · rw [hpopped]
      exact hr
    · rw [hpopped]
      omega
    · have hdrop : output.length ≤ (s.pushed.drop s.popped.length).length := by
        rw [length_drop]
        omega
      rw [hpopped, hpushed, drop_append_of_le_length (by omega), take_append_of_le_length hdrop]
      exact heq
  | sizeLoaded first value =>
    cases first with
    | read =>
      show value = _
      rw [hpopped]
      exact h
    | write =>
      obtain ⟨w, hw, hle, hge⟩ := h
      refine ⟨w, hw, by omega, ?_⟩
      rw [hpopped]
      exact hge

theorem mod_ne_mod {a b capacity : Nat} (hab : a < b) (hb : b < a + capacity) :
    a % capacity ≠ b % capacity := by
  intro h
  have hdvd : capacity ∣ b - a := (Nat.modEq_iff_dvd' (Nat.le_of_lt hab)).mp h
  have := Nat.le_of_dvd (by omega) hdvd
  omega

theorem Inv.setProducer (h : Inv k s) {p : Producer α} (hp : p.Knows k s) :
    Inv k { s with producer := p } :=
  ⟨h.capacity_eq, h.readIndex_eq, h.writeIndex_eq, h.popped_le, h.pushed_le, h.popped_eq, h.unread,
    hp.mono rfl rfl (Nat.le_refl _), h.consumer.mono rfl (append_nil _).symm, h.accepted,
    h.sizes⟩

theorem Inv.setConsumer (h : Inv k s) {c : Consumer α} (hc : c.Knows k s) :
    Inv k { s with consumer := c } :=
  ⟨h.capacity_eq, h.readIndex_eq, h.writeIndex_eq, h.popped_le, h.pushed_le, h.popped_eq, h.unread,
    h.producer.mono rfl rfl (Nat.le_refl _), hc.mono rfl (append_nil _).symm, h.accepted,
    h.sizes⟩

/-! ## 4. The producer's steps -/

variable {slots : List α}

theorem Inv.pushLoad (hk : Admissible k) (h : Inv k s) {free : Nat} {w : Word}
    (hp : Producer.Knows k s (.pushLoaded slots free w)) :
    Producer.Knows k s (.pushCopying slots free w (planCopy s.capacity w
      (wordMin (BitVec.ofNat 64 slots.length) (s.capacity + s.readIndex - w))) 0) := by
  obtain ⟨hlen, hfree, rfl⟩ := hp
  have hslots : (BitVec.ofNat 64 slots.length).toNat = slots.length := by
    rw [toNat_ofNat, Nat.mod_eq_of_lt hlen]
  have hcount : (wordMin (BitVec.ofNat 64 slots.length)
      (s.capacity + s.readIndex - BitVec.ofNat 64 s.pushed.length)).toNat =
      min slots.length (s.popped.length + 2 ^ k - s.pushed.length) := by
    rw [toNat_wordMin, hslots, h.capacity_eq, h.readIndex_eq, toNat_slotsFree hk h.popped_le h.pushed_le]
  have hpushed := h.pushed_le
  refine ⟨rfl, ⟨_, by rw [h.capacity_eq]⟩, ?_, ?_, ?_, Nat.zero_le _, fun i hi => absurd hi (Nat.not_lt_zero i)⟩
  all_goals
    simp only [planCopy]
    rw [hcount]
    omega

variable {copy : Copy}

/-- `Push` copies one slot into a place that holds nothing unread. -/
theorem Inv.pushCopy (hk : Admissible k) (h : Inv k s) {free done : Nat} {w : Word}
    {slot : α} (hp : Producer.Knows k s (.pushCopying slots free w copy done))
    (hlt : done < copy.count.toNat) (hslot : slots[done]? = some slot) :
    Inv k { s with
      data := Function.update s.data (copy.slot done) slot
      producer := .pushCopying slots free w copy (done + 1) } := by
  obtain ⟨rfl, ⟨count, rfl⟩, hle, hmin, hroom, hdone, hslots⟩ := hp
  have hpushed := h.pushed_le
  have hpopped := h.popped_le
  have hcount : s.pushed.length + count.toNat ≤ s.popped.length + 2 ^ k := hroom
  have hdone' : done < count.toNat := hlt
  have hplace : (planCopy (BitVec.ofNat 64 (2 ^ k)) (BitVec.ofNat 64 s.pushed.length) count).slot done =
      (s.pushed.length + done) % 2 ^ k := slot_planCopy hk (by omega) hdone'
  rw [hplace]
  refine ⟨h.capacity_eq, h.readIndex_eq, h.writeIndex_eq, hpopped, hpushed, h.popped_eq, ?_,
    ⟨rfl, ⟨count, rfl⟩, hle, hmin, hroom, hlt, ?_⟩, h.consumer.mono rfl (append_nil _).symm,
    h.accepted, h.sizes⟩
  · intro i hri hiw
    have hiw' : i < s.pushed.length := hiw
    have hri' : s.popped.length ≤ i := hri
    have hne : i % 2 ^ k ≠ (s.pushed.length + done) % 2 ^ k := mod_ne_mod (by omega) (by omega)
    show s.pushed[i]? = some (Function.update s.data ((s.pushed.length + done) % 2 ^ k) slot (i % 2 ^ k))
    rw [update_of_ne hne]
    exact h.unread i hri hiw
  · intro i hi
    show slots[i]? = some (Function.update s.data ((s.pushed.length + done) % 2 ^ k) slot
      ((s.pushed.length + i) % 2 ^ k))
    rcases Nat.lt_succ_iff_lt_or_eq.mp hi with hi | rfl
    · have hne : (s.pushed.length + i) % 2 ^ k ≠ (s.pushed.length + done) % 2 ^ k :=
        mod_ne_mod (by omega) (by omega)
      rw [update_of_ne hne]
      exact hslots i hi
    · rw [update_self, hslot]

/-- `Push` stores the write index: the slots it copied become readable. -/
theorem Inv.pushStore (h : Inv k s) {free done : Nat} {w : Word}
    (hp : Producer.Knows k s (.pushCopying slots free w copy done))
    (hge : ¬done < copy.count.toNat) :
    Inv k { s with
      writeIndex := w + copy.count
      producer := .idle
      pushed := s.pushed ++ slots.take copy.count.toNat
      pushes := s.pushes ++ [⟨slots.length, free, copy.count.toNat⟩] } := by
  obtain ⟨rfl, hcopy, hle, hmin, hroom, hdone, hslots⟩ := hp
  have hpopped := h.popped_le
  have hlen : (s.pushed ++ slots.take copy.count.toNat).length = s.pushed.length + copy.count.toNat := by
    rw [length_append, length_take, Nat.min_eq_left hle]
  refine ⟨h.capacity_eq, h.readIndex_eq, ?_, ?_, ?_, ?_, ?_, trivial, h.consumer.mono rfl rfl, ?_, h.sizes⟩
  · show BitVec.ofNat 64 s.pushed.length + copy.count = _
    rw [hlen, ofNat_add, ofNat_toNat, setWidth_eq]
  · show s.popped.length ≤ (s.pushed ++ slots.take copy.count.toNat).length
    omega
  · show (s.pushed ++ slots.take copy.count.toNat).length ≤ s.popped.length + 2 ^ k
    omega
  · show s.popped = (s.pushed ++ slots.take copy.count.toNat).take s.popped.length
    rw [take_append_of_le_length hpopped]
    exact h.popped_eq
  · intro i hri hiw
    show (s.pushed ++ slots.take copy.count.toNat)[i]? = _
    by_cases hi : i < s.pushed.length
    · rw [List.getElem?_append_left hi]
      exact h.unread i hri hi
    · have hiw' : i < s.pushed.length + copy.count.toNat := lt_of_lt_of_eq hiw hlen
      have hslot := hslots (i - s.pushed.length) (by omega)
      rw [Nat.add_sub_of_le (by omega)] at hslot
      rw [List.getElem?_append_right (by omega), List.getElem?_take_of_lt (by omega)]
      exact hslot
  · intro r hr
    rcases mem_append.mp hr with hr | hr
    · exact h.accepted r hr
    · rw [mem_singleton.mp hr]
      exact hmin

/-! ## 5. The consumer's steps -/

theorem Inv.popLoad (hk : Admissible k) (h : Inv k s) {maxSlots r : Word}
    (hc : Consumer.Knows k s (.popLoaded maxSlots r)) :
    Consumer.Knows k s (.popCopying r
      (planCopy s.capacity r (wordMin (s.writeIndex - r) maxSlots)) []) := by
  obtain rfl : r = BitVec.ofNat 64 s.popped.length := hc
  have hpopped := h.popped_le
  have hpushed := h.pushed_le
  have hfilled : (s.writeIndex - BitVec.ofNat 64 s.popped.length).toNat =
      s.pushed.length - s.popped.length := by
    unfold Admissible at hk
    rw [h.writeIndex_eq, toNat_index_sub hpopped (by omega)]
  refine ⟨rfl, ⟨_, by rw [h.capacity_eq]⟩, ?_, Nat.zero_le _, rfl⟩
  simp only [planCopy]
  rw [toNat_wordMin, hfilled]
  omega

theorem Inv.popCopy (hk : Admissible k) (h : Inv k s) {r : Word} {output : List α}
    (hc : Consumer.Knows k s (.popCopying r copy output)) (hlt : output.length < copy.count.toNat) :
    Consumer.Knows k s (.popCopying r copy (output ++ [s.data (copy.slot output.length)])) := by
  obtain ⟨rfl, ⟨count, rfl⟩, hfilled, hout, heq⟩ := hc
  have hpushed := h.pushed_le
  have hcount : s.popped.length + count.toNat ≤ s.pushed.length := hfilled
  have hlt' : output.length < count.toNat := hlt
  have hplace : (planCopy (BitVec.ofNat 64 (2 ^ k)) (BitVec.ofNat 64 s.popped.length) count).slot
      output.length = (s.popped.length + output.length) % 2 ^ k :=
    slot_planCopy hk (by omega) hlt'
  have hnext : (s.pushed.drop s.popped.length)[output.length]? =
      some (s.data ((s.popped.length + output.length) % 2 ^ k)) := by
    rw [List.getElem?_drop]
    exact h.unread _ (Nat.le_add_right _ _) (by omega)
  have hlen : (output ++ [s.data ((s.popped.length + output.length) % 2 ^ k)]).length =
      output.length + 1 := by
    rw [length_append, length_singleton]
  rw [hplace]
  refine ⟨rfl, ⟨count, rfl⟩, hfilled, hlen ▸ hlt, ?_⟩
  rw [hlen, take_add_one, hnext, ← heq]
  rfl

theorem Inv.popStore (h : Inv k s) {r : Word} {output : List α}
    (hc : Consumer.Knows k s (.popCopying r copy output))
    (hge : ¬output.length < copy.count.toNat) :
    Inv k { s with
      readIndex := r + copy.count
      consumer := .idle
      popped := s.popped ++ output } := by
  obtain ⟨rfl, hcopy, hfilled, hout, heq⟩ := hc
  have hcount : output.length = copy.count.toNat := by omega
  have hlen : (s.popped ++ output).length = s.popped.length + copy.count.toNat := by
    rw [length_append, hcount]
  have hpushed := h.pushed_le
  refine ⟨h.capacity_eq, ?_, h.writeIndex_eq, ?_, ?_, ?_, ?_, ?_, trivial, h.accepted, h.sizes⟩
  · show BitVec.ofNat 64 s.popped.length + copy.count = _
    rw [hlen, ofNat_add, ofNat_toNat, setWidth_eq]
  · show (s.popped ++ output).length ≤ s.pushed.length
    omega
  · show s.pushed.length ≤ (s.popped ++ output).length + 2 ^ k
    omega
  · show s.popped ++ output = s.pushed.take (s.popped ++ output).length
    rw [length_append, take_add, ← h.popped_eq, ← heq]
  · intro i hri hiw
    have hri' : (s.popped ++ output).length ≤ i := hri
    exact h.unread i (by omega) hiw
  · refine h.producer.mono rfl rfl ?_
    show s.popped.length ≤ (s.popped ++ output).length
    omega

/-! ## 6. `Size` -/

theorem toNat_size_le (hk : Admissible k) {r w : Nat} (hrw : r ≤ w) (hw : w ≤ r + 2 ^ k) :
    (BitVec.ofNat 64 w - BitVec.ofNat 64 r).toNat ≤ 2 ^ k := by
  unfold Admissible at hk
  rw [toNat_index_sub hrw (by omega)]
  omega

theorem Inv.size_le (hk : Admissible k) (h : Inv k s) : s.size.toNat ≤ 2 ^ k := by
  rw [State.size, h.readIndex_eq, h.writeIndex_eq]
  exact toNat_size_le hk h.popped_le h.pushed_le

theorem Inv.producerSize_le (hk : Admissible k) (h : Inv k s) {first : Index} {value : Word}
    (hp : Producer.Knows k s (.sizeLoaded first value)) :
    (State.sizeOf first value (s.load (State.otherIndex first))).toNat ≤ 2 ^ k := by
  cases first with
  | write =>
    obtain rfl : value = _ := hp
    show (_ - s.readIndex).toNat ≤ _
    rw [h.readIndex_eq]
    exact toNat_size_le hk h.popped_le h.pushed_le
  | read =>
    obtain ⟨r, rfl, hle, hroom⟩ := hp
    show (s.writeIndex - _).toNat ≤ _
    rw [h.writeIndex_eq]
    exact toNat_size_le hk (Nat.le_trans hle h.popped_le) hroom

theorem Inv.consumerSize_le (hk : Admissible k) (h : Inv k s) {first : Index} {value : Word}
    (hc : Consumer.Knows k s (.sizeLoaded first value)) :
    (State.sizeOf first value (s.load (State.otherIndex first))).toNat ≤ 2 ^ k := by
  cases first with
  | read =>
    obtain rfl : value = _ := hc
    show (s.writeIndex - _).toNat ≤ _
    rw [h.writeIndex_eq]
    exact toNat_size_le hk h.popped_le h.pushed_le
  | write =>
    obtain ⟨w, rfl, hle, hge⟩ := hc
    show (_ - s.readIndex).toNat ≤ _
    rw [h.readIndex_eq]
    exact toNat_size_le hk hge (Nat.le_trans hle h.pushed_le)

theorem Inv.logSize (h : Inv k s) {value : Word} (hv : value.toNat ≤ 2 ^ k) :
    Inv k { s with sizes := s.sizes ++ [value] } := by
  refine ⟨h.capacity_eq, h.readIndex_eq, h.writeIndex_eq, h.popped_le, h.pushed_le, h.popped_eq, h.unread,
    h.producer.mono rfl rfl (Nat.le_refl _), h.consumer.mono rfl (append_nil _).symm, h.accepted, ?_⟩
  intro v hmem
  rcases mem_append.mp hmem with hmem | hmem
  · exact h.sizes v hmem
  · rw [mem_singleton.mp hmem]
    exact hv

/-! ## 7. Every step -/

theorem inv_producerStep (hk : Admissible k) (h : Inv k s) (hs : s.producerStep = some s') : Inv k s' := by
  have hp := h.producer
  unfold State.producerStep at hs
  cases hpc : s.producer with
  | idle =>
    rw [hpc] at hs
    cases hs
  | pushLoaded slots free w =>
    rw [hpc] at hs hp
    cases hs
    exact h.setProducer (h.pushLoad hk hp)
  | pushCopying slots free w copy done =>
    rw [hpc] at hs hp
    dsimp only at hs
    split at hs
    · next hlt =>
        split at hs
        · cases hs
        · next slot hslot =>
            cases hs
            exact h.pushCopy hk hp hlt hslot
    · next hge =>
        cases hs
        exact h.pushStore hp hge
  | sizeLoaded first value =>
    rw [hpc] at hs hp
    cases hs
    exact (h.setProducer (p := .idle) trivial).logSize (h.producerSize_le hk hp)

theorem inv_consumerStep (hk : Admissible k) (h : Inv k s) (hs : s.consumerStep = some s') : Inv k s' := by
  have hc := h.consumer
  unfold State.consumerStep at hs
  cases hpc : s.consumer with
  | idle =>
    rw [hpc] at hs
    cases hs
  | popLoaded maxSlots r =>
    rw [hpc] at hs hc
    cases hs
    exact h.setConsumer (h.popLoad hk hc)
  | popCopying r copy output =>
    rw [hpc] at hs hc
    dsimp only at hs
    split at hs
    · next hlt =>
        cases hs
        exact h.setConsumer (h.popCopy hk hc hlt)
    · next hge =>
        cases hs
        exact h.popStore hc hge
  | sizeLoaded first value =>
    rw [hpc] at hs hc
    cases hs
    exact (h.setConsumer (c := .idle) trivial).logSize (h.consumerSize_le hk hc)

theorem inv_step (hk : Admissible k) (h : Inv k s) {a : Action α} (hs : s.step a = some s') : Inv k s' := by
  cases a with
  | startPush slots =>
    simp only [State.step] at hs
    split at hs
    · split at hs
      · next hlen =>
          cases hs
          refine h.setProducer ⟨hlen, ?_, h.writeIndex_eq⟩
          have := h.pushed_le
          rw [State.freeSlots, h.capacity_eq, toNat_capacity hk]
          omega
      · cases hs
    · cases hs
  | startPop maxSlots =>
    simp only [State.step] at hs
    split at hs
    · cases hs
      exact h.setConsumer h.readIndex_eq
    · cases hs
  | producerSize first =>
    simp only [State.step] at hs
    split at hs
    · cases hs
      refine h.setProducer ?_
      cases first with
      | write => exact h.writeIndex_eq
      | read => exact ⟨_, h.readIndex_eq, Nat.le_refl _, h.pushed_le⟩
    · cases hs
  | consumerSize first =>
    simp only [State.step] at hs
    split at hs
    · cases hs
      refine h.setConsumer ?_
      cases first with
      | read => exact h.readIndex_eq
      | write => exact ⟨_, h.writeIndex_eq, Nat.le_refl _, h.popped_le⟩
    · cases hs
  | producer => exact inv_producerStep hk h hs
  | consumer => exact inv_consumerStep hk h hs

theorem inv_run (hk : Admissible k) {data : Nat → α} {as : List (Action α)} (h : Run k data as s) :
    Inv k s :=
  h.invariant (Inv k) (fun _ _ _ _ hi hs => inv_step hk hi hs) (inv_initial k data)

/-! ## 8. The queue -/

/-- The slot of the buffer that the producer writes next, if it is about to. -/
def State.writesSlot (s : State α) : Option Nat :=
  match s.producer with
  | .pushCopying _ _ _ copy done => if done < copy.count.toNat then some (copy.slot done) else none
  | _ => none

/-- The slots that an unfinished `Pop` has copied out. -/
def State.copiedOut (s : State α) : List α :=
  match s.consumer with
  | .popCopying _ _ output => output
  | _ => []

/-- **The users' view** of the buffer in one state. -/
structure Fifo (k : Nat) (s : State α) : Prop where
  /-- What was popped is a prefix of what was pushed. -/
  inOrder : s.popped <+: s.pushed
  /-- And so is what a `Pop` under way has copied out. -/
  copiedInOrder : s.popped ++ s.copiedOut <+: s.pushed
  /-- Each `Push` took what it was given, or at least what was free when it began. -/
  accepted : ∀ r ∈ s.pushes, min r.slotCount r.free ≤ r.pushCount
  /-- The unread slots are in the buffer. -/
  unread : ∀ i, s.popped.length ≤ i → i < s.pushed.length → s.pushed[i]? = some (s.data (i % 2 ^ k))
  /-- The producer writes inside the buffer, and not where an unread slot is. -/
  noOverwrite : ∀ p, s.writesSlot = some p → p < 2 ^ k ∧
    ∀ i, s.popped.length ≤ i → i < s.pushed.length → p ≠ i % 2 ^ k
  /-- Every `Size` returned, and the size now. -/
  sizes : ∀ v ∈ s.sizes, v.toNat ≤ 2 ^ k
  size : s.size.toNat ≤ 2 ^ k
  /-- A call under way can go on. -/
  producerRuns : s.producerStep = none → s.producer = .idle
  consumerRuns : s.consumerStep = none → s.consumer = .idle

theorem Inv.copiedInOrder (h : Inv k s) : s.popped ++ s.copiedOut <+: s.pushed := by
  have hpre : s.popped <+: s.pushed := h.popped_eq ▸ take_prefix _ _
  have hc := h.consumer
  unfold State.copiedOut
  cases hpc : s.consumer with
  | popCopying r copy output =>
    rw [hpc] at hc
    obtain ⟨-, -, -, -, heq⟩ := hc
    dsimp only
    rw [heq]
    nth_rewrite 1 [h.popped_eq]
    rw [← take_add]
    exact take_prefix _ _
  | idle => simpa using hpre
  | popLoaded maxSlots r => simpa using hpre
  | sizeLoaded first value => simpa using hpre

theorem Inv.noOverwrite (hk : Admissible k) (h : Inv k s) {p : Nat} (hw : s.writesSlot = some p) :
    p < 2 ^ k ∧ ∀ i, s.popped.length ≤ i → i < s.pushed.length → p ≠ i % 2 ^ k := by
  have hp := h.producer
  have hpopped := h.popped_le
  unfold State.writesSlot at hw
  cases hpc : s.producer with
  | pushCopying slots free w copy done =>
    rw [hpc] at hw hp
    dsimp only at hw
    obtain ⟨rfl, ⟨count, rfl⟩, -, -, hroom, -, -⟩ := hp
    split at hw
    · next hlt =>
        have hcount : s.pushed.length + count.toNat ≤ s.popped.length + 2 ^ k := hroom
        have hlt' : done < count.toNat := hlt
        rw [slot_planCopy hk (by omega) hlt'] at hw
        obtain rfl : (s.pushed.length + done) % 2 ^ k = p := Option.some.inj hw
        exact ⟨Nat.mod_lt _ (Nat.two_pow_pos k),
          fun i hri hiw => (mod_ne_mod (by omega) (by omega)).symm⟩
    · cases hw
  | idle => rw [hpc] at hw; cases hw
  | pushLoaded slots free w => rw [hpc] at hw; cases hw
  | sizeLoaded first value => rw [hpc] at hw; cases hw

theorem Inv.producerRuns (h : Inv k s) (hs : s.producerStep = none) : s.producer = .idle := by
  have hp := h.producer
  unfold State.producerStep at hs
  cases hpc : s.producer with
  | idle => rfl
  | pushLoaded slots free w => rw [hpc] at hs; cases hs
  | sizeLoaded first value => rw [hpc] at hs; cases hs
  | pushCopying slots free w copy done =>
    rw [hpc] at hs hp
    obtain ⟨-, -, hle, -⟩ := hp
    dsimp only at hs
    split at hs
    · next hlt =>
        split at hs
        · next hnone =>
            have := List.getElem?_eq_none_iff.mp hnone
            omega
        · cases hs
    · cases hs

theorem consumerRuns (hs : s.consumerStep = none) : s.consumer = .idle := by
  unfold State.consumerStep at hs
  cases hpc : s.consumer with
  | idle => rfl
  | popLoaded maxSlots r => rw [hpc] at hs; cases hs
  | sizeLoaded first value => rw [hpc] at hs; cases hs
  | popCopying r copy output =>
    rw [hpc] at hs
    dsimp only at hs
    split at hs <;> cases hs

/-- **`RingBuffer` is a queue**: for every admissible capacity, whatever was in the memory, in every
state of every interleaving of one producer and one consumer. -/
theorem run_fifo (hk : Admissible k) (data : Nat → α) (as : List (Action α)) (s : State α)
    (h : Run k data as s) : Fifo k s := by
  have hi := inv_run hk h
  exact {
    inOrder := hi.popped_eq ▸ take_prefix _ _
    copiedInOrder := hi.copiedInOrder
    accepted := hi.accepted
    unread := hi.unread
    noOverwrite := fun p hp => hi.noOverwrite hk hp
    sizes := hi.sizes
    size := hi.size_le hk
    producerRuns := hi.producerRuns
    consumerRuns := consumerRuns }

/-- One slot of two taken by a buffer of one slot, and a `Pop` that is about to copy it out. -/
theorem run_fifo_of_one_slot : ∃ s : State Nat, s.pushed = [7] ∧ Fifo 0 s :=
  ⟨_, rfl, run_fifo (by unfold Admissible; decide) (fun _ => 0)
    [.startPush [7, 8], .producer, .startPop 5, .producer, .producer, .consumer] _
    (.cons rfl (.cons rfl (.cons rfl (.cons rfl (.cons rfl (.cons rfl (.nil _)))))))⟩

end Yuzu.Common.RingBuffer
