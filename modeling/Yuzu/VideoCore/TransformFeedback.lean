/-
  File:      Yuzu/VideoCore/TransformFeedback.lean
  Subject:   MakeTransformFeedbackVaryings (video_core/transform_feedback.cpp): the varyings of the words
             that a transform feedback layout lists.

  The words of a buffer are followed in order; those that fall into one vector become one entry, which
  stands for consecutive attributes.
-/
import Yuzu.Common.Alignment

namespace Yuzu.VideoCore.TransformFeedback

open Yuzu.Common (alignDown alignDown_eq_mul_div)

/-! ## 1. The table -/

/-- The first attributes of the vectors: `gl_Position`, the generic ones, the colors and `gl_TexCoord`. -/
def vectors : List Nat :=
  28 :: (List.range 32).map (fun i => 32 + 4 * i) ++
    [160, 164, 160, 164, 192, 196, 200, 204, 208, 212, 216, 220]

/-- `Shader::TransformFeedbackVarying`. -/
structure Varying where
  buffer : Nat
  stride : Nat
  offset : Nat
  components : Nat

/-- `NumTransformFeedbackBuffers`. -/
def numTransformFeedbackBuffers : Nat := 4

/-- One buffer of `TransformFeedbackState`: its layout, and the attribute of each word. -/
structure Layout where
  varyingCount : Nat
  stride : Nat
  getAttribute : Nat → Nat

/-- `xfb` and `count`. -/
structure Table where
  xfb : Nat → Varying
  count : Nat

/-- The last word of the inner loop from a word on, in the vector with the given index. -/
def lastWord (layout : Layout) (baseIndex offset : Nat) : Nat :=
  if offset + 1 < layout.varyingCount ∧ baseIndex = layout.getAttribute (offset + 1) / 4 then
    lastWord layout baseIndex (offset + 1)
  else offset
termination_by layout.varyingCount - offset

/-- The last word of the entry that starts at a word. -/
def entryEnd (layout : Layout) (offset : Nat) : Nat :=
  if alignDown (layout.getAttribute offset) 4 ∈ vectors then
    lastWord layout (layout.getAttribute offset / 4) offset
  else offset

/-- The entry of the words from `offset` to `last`. -/
def Table.addEntry (t : Table) (layout : Layout) (buffer offset last : Nat) : Table where
  xfb := Function.update t.xfb (layout.getAttribute offset)
    ⟨buffer, layout.stride, offset * 4, last - offset + 1⟩
  count := max t.count (layout.getAttribute offset)

theorem lastWord_spec {layout : Layout} (baseIndex offset : Nat) (h : offset < layout.varyingCount) :
    offset ≤ lastWord layout baseIndex offset ∧ lastWord layout baseIndex offset < layout.varyingCount ∧
      (∀ k, offset ≤ k → k < lastWord layout baseIndex offset → layout.getAttribute (k + 1) / 4 =
        baseIndex) ∧
      (lastWord layout baseIndex offset + 1 < layout.varyingCount →
        layout.getAttribute (lastWord layout baseIndex offset + 1) / 4 ≠ baseIndex) := by
  induction offset using lastWord.induct layout baseIndex with
  | case1 offset hnext ih =>
    obtain ⟨h1, h2, h3, h4⟩ := ih hnext.1
    rw [lastWord, if_pos hnext]
    refine ⟨by omega, h2, fun k hk hlt => ?_, h4⟩
    by_cases hk' : k = offset
    · rw [hk']
      exact hnext.2.symm
    · exact h3 k (by omega) hlt
  | case2 offset hnext =>
    rw [lastWord, if_neg hnext]
    exact ⟨Nat.le_refl _, h, fun k hk hlt => absurd hk (Nat.not_le.mpr hlt),
      fun hlt he => hnext ⟨hlt, he.symm⟩⟩

/-- The loop over the words of a buffer. -/
def bufferLoop (layout : Layout) (buffer offset : Nat) (t : Table) : Table :=
  if h : offset < layout.varyingCount then
    bufferLoop layout buffer (entryEnd layout offset + 1)
      (t.addEntry layout buffer offset (entryEnd layout offset))
  else t
termination_by layout.varyingCount - offset
decreasing_by
  have : offset ≤ entryEnd layout offset := by
    unfold entryEnd
    split
    · exact (lastWord_spec _ offset h).1
    · exact Nat.le_refl _
  omega

/-- `MakeTransformFeedbackVaryings`. -/
def makeTransformFeedbackVaryings (state : Nat → Layout) : (Nat → Varying) × Nat :=
  let t := (List.range numTransformFeedbackBuffers).foldl
    (fun t buffer => bufferLoop (state buffer) buffer 0 t)
    ⟨fun _ => ⟨0, 0, 0, 0⟩, 0⟩
  (t.xfb, t.count + 1)

/-! ## 2. What the table describes -/

/-- The word `k` of a buffer is listed. -/
def Listed (state : Nat → Layout) (buffer k : Nat) : Prop :=
  buffer < numTransformFeedbackBuffers ∧ k < (state buffer).varyingCount

/-- No attribute is listed twice. -/
def Distinct (state : Nat → Layout) : Prop :=
  ∀ b k b' k', Listed state b k → Listed state b' k' →
    (state b).getAttribute k = (state b').getAttribute k' → b = b' ∧ k = k'

/-- **The entries, expanded into words, are the layout**, and the used ones are below the count. -/
def Describes (state : Nat → Layout) (r : (Nat → Varying) × Nat) : Prop :=
  (∀ b k attr,
    (∃ a j, j < (r.1 a).components ∧ (r.1 a).buffer = b ∧ (r.1 a).offset / 4 + j = k ∧ a + j = attr) ↔
      Listed state b k ∧ (state b).getAttribute k = attr) ∧
  ∀ a, 0 < (r.1 a).components → a < r.2

/-- A word and the next one fall into the same vector. -/
def Joined (state : Nat → Layout) (b k : Nat) : Prop :=
  alignDown ((state b).getAttribute k) 4 ∈ vectors ∧
    (state b).getAttribute (k + 1) / 4 = (state b).getAttribute k / 4

/-- Vectors are listed from their first components on. -/
def Started (state : Nat → Layout) : Prop :=
  ∀ b k, Listed state b k → alignDown ((state b).getAttribute k) 4 ∈ vectors →
    (∀ j, j + 1 = k → ¬Joined state b j) → (state b).getAttribute k % 4 = 0

/-- Where consecutive words fall into the same vector, the second has the next component. -/
def InOrder (state : Nat → Layout) : Prop :=
  ∀ b k, Listed state b (k + 1) → Joined state b k →
    (state b).getAttribute (k + 1) = (state b).getAttribute k + 1

/-- **The invariant of the loops**: the entries cover the words seen so far, each starts at the attribute it
is filed under, and two words of one entry are those that are joined. -/
structure Covers (state : Nat → Layout) (seen : Nat → Nat → Prop) (t : Table) : Prop where
  first : ∀ a, 0 < (t.xfb a).components → (state (t.xfb a).buffer).getAttribute ((t.xfb a).offset / 4) = a
  within : ∀ a j, j < (t.xfb a).components → seen (t.xfb a).buffer ((t.xfb a).offset / 4 + j)
  steps : ∀ a j, j + 1 < (t.xfb a).components → Joined state (t.xfb a).buffer ((t.xfb a).offset / 4 + j)
  covered : ∀ b k, seen b k →
    ∃ a j, j < (t.xfb a).components ∧ (t.xfb a).buffer = b ∧ (t.xfb a).offset / 4 + j = k
  joined : ∀ b k, seen b (k + 1) → Joined state b k →
    ∃ a j, j + 1 < (t.xfb a).components ∧ (t.xfb a).buffer = b ∧ (t.xfb a).offset / 4 + j = k
  count_le : ∀ a, 0 < (t.xfb a).components → a ≤ t.count

/-- The words in front of a word of a buffer. -/
def Seen (state : Nat → Layout) (buffer offset b k : Nat) : Prop :=
  b < buffer ∧ k < (state b).varyingCount ∨ b = buffer ∧ k < offset

variable {state : Nat → Layout} {seen : Nat → Nat → Prop} {t : Table} {buffer offset : Nat}

theorem entryEnd_spec (h : offset < (state buffer).varyingCount) :
    offset ≤ entryEnd (state buffer) offset ∧ entryEnd (state buffer) offset < (state buffer).varyingCount ∧
      (∀ k, offset ≤ k → k < entryEnd (state buffer) offset → Joined state buffer k) ∧
      (entryEnd (state buffer) offset + 1 < (state buffer).varyingCount →
        ¬Joined state buffer (entryEnd (state buffer) offset)) := by
  unfold entryEnd
  split
  · rename_i hvector
    obtain ⟨h1, h2, h3, h4⟩ := lastWord_spec ((state buffer).getAttribute offset / 4) offset h
    have hbase : ∀ k,
      offset ≤ k → k ≤ lastWord (state buffer) ((state buffer).getAttribute offset / 4) offset →
        (state buffer).getAttribute k / 4 = (state buffer).getAttribute offset / 4 := by
      intro k hk hle
      by_cases hk' : k = offset
      · rw [hk']
      · have := h3 (k - 1) (by omega) (by omega)
        rwa [Nat.sub_add_cancel (by omega)] at this
    refine ⟨h1, h2, fun k hk hlt => ⟨?_, (h3 k hk hlt).trans (hbase k hk (Nat.le_of_lt hlt)).symm⟩,
      fun hlt hjoined => h4 hlt (hjoined.2.trans (hbase _ h1 (Nat.le_refl _)))⟩
    rw [alignDown_eq_mul_div, hbase k hk (Nat.le_of_lt hlt), ← alignDown_eq_mul_div]
    exact hvector
  · rename_i hvector
    exact ⟨Nat.le_refl _, h, fun k hk hlt => absurd hk (Nat.not_le.mpr hlt),
      fun _ hjoined => hvector hjoined.1⟩

theorem Seen.listed {b k : Nat} (h : Seen state buffer offset b k)
    (hbuffer : buffer < numTransformFeedbackBuffers)
    (hoffset : offset ≤ (state buffer).varyingCount) : Listed state b k := by
  rcases h with ⟨hb, hk⟩ | ⟨rfl, hk⟩
  · exact ⟨Nat.lt_trans hb hbuffer, hk⟩
  · exact ⟨hbuffer, Nat.lt_of_lt_of_le hk hoffset⟩

/-- **One entry**: the words from `offset` to `last` are seen too. -/
theorem Covers.addEntry {last : Nat} (hdistinct : Distinct state)
    (h : Covers state (Seen state buffer offset) t)
    (hbuffer : buffer < numTransformFeedbackBuffers) (hle : offset ≤ last)
    (hlast : last < (state buffer).varyingCount)
      (hinner : ∀ k, offset ≤ k → k < last → Joined state buffer k)
    (hstart : ∀ k, k + 1 = offset → ¬Joined state buffer k) :
    Covers state (Seen state buffer (last + 1)) (t.addEntry (state buffer) buffer offset last) := by
  -- the attribute is listed at this word alone, so no earlier entry is filed under it
  have hfresh : ∀ a, 0 < (t.xfb a).components → a ≠ (state buffer).getAttribute offset := by
    rintro a ha rfl
    have hseen := h.within _ 0 ha
    obtain ⟨hb, hk⟩ := hdistinct _ _ buffer offset (hseen.listed hbuffer (by omega)) ⟨hbuffer, by omega⟩
      (h.first _ ha)
    rw [hb, hk] at hseen
    rcases hseen with ⟨hb, -⟩ | ⟨-, hk⟩
    · exact Nat.lt_irrefl _ hb
    · exact Nat.lt_irrefl _ hk
  have hself : (t.addEntry (state buffer) buffer offset last).xfb ((state buffer).getAttribute offset) =
      ⟨buffer, (state buffer).stride, offset * 4, last - offset + 1⟩ := Function.update_self ..
  have hother : ∀ a, a ≠ (state buffer).getAttribute offset →
      (t.addEntry (state buffer) buffer offset last).xfb a = t.xfb a := fun a ha => Function.update_of_ne
        ha ..
  have hcases : ∀ a, (t.addEntry (state buffer) buffer offset last).xfb a =
      ⟨buffer, (state buffer).stride, offset * 4, last - offset + 1⟩ ∧ a = (state buffer).getAttribute
        offset ∨
      (t.addEntry (state buffer) buffer offset last).xfb a = t.xfb a := by
    intro a
    by_cases ha : a = (state buffer).getAttribute offset
    · exact .inl ⟨by rw [ha, hself], ha⟩
    · exact .inr (hother a ha)
  have hmono : ∀ b k, Seen state buffer offset b k → Seen state buffer (last + 1) b k :=
    fun b k => Or.imp_right fun hk => ⟨hk.1, by omega⟩
  have hsplit : ∀ b k, Seen state buffer (last + 1) b k →
      Seen state buffer offset b k ∨ b = buffer ∧ offset ≤ k ∧ k ≤ last := by
    rintro b k (hk | ⟨hb, hk⟩)
    · exact .inl (.inl hk)
    · by_cases hlt : k < offset
      · exact .inl (.inr ⟨hb, hlt⟩)
      · exact .inr ⟨hb, by omega, by omega⟩
  have hword : offset * 4 / 4 = offset := Nat.mul_div_cancel offset (by omega)
  refine ⟨fun a ha => ?_, fun a j hj => ?_, fun a j hj => ?_, fun b k hk => ?_, fun b k hk hjoined => ?_,
    fun a ha => ?_⟩
  · rcases hcases a with ⟨e, rfl⟩ | e <;> rw [e] at ha ⊢
    · rw [hword]
    · exact h.first a ha
  · rcases hcases a with ⟨e, rfl⟩ | e <;> rw [e] at hj ⊢
    · dsimp only at hj ⊢
      rw [hword]
      exact .inr ⟨rfl, by omega⟩
    · exact hmono _ _ (h.within a j hj)
  · rcases hcases a with ⟨e, rfl⟩ | e <;> rw [e] at hj ⊢
    · dsimp only at hj ⊢
      rw [hword]
      exact hinner _ (by omega) (by omega)
    · exact h.steps a j hj
  · rcases hsplit b k hk with hk | ⟨rfl, hk⟩
    · obtain ⟨a, j, hj, hbuf, hoff⟩ := h.covered b k hk
      have hne := hfresh a (by omega)
      exact ⟨a, j, by rwa [hother a hne], by rwa [hother a hne], by rwa [hother a hne]⟩
    · refine ⟨(state b).getAttribute offset, k - offset, ?_⟩
      rw [hself]
      exact ⟨by dsimp only; omega, rfl, by dsimp only; omega⟩
  · rcases hsplit b (k + 1) hk with hk | ⟨rfl, hk⟩
    · obtain ⟨a, j, hj, hbuf, hoff⟩ := h.joined b k hk hjoined
      have hne := hfresh a (by omega)
      exact ⟨a, j, by rwa [hother a hne], by rwa [hother a hne], by rwa [hother a hne]⟩
    · have hne : k + 1 ≠ offset := fun e => hstart k e hjoined
      refine ⟨(state b).getAttribute offset, k - offset, ?_⟩
      rw [hself]
      exact ⟨by dsimp only; omega, rfl, by dsimp only; omega⟩
  · rcases hcases a with ⟨-, rfl⟩ | e
    · exact Nat.le_max_right ..
    · rw [e] at ha
      exact Nat.le_trans (h.count_le a ha) (Nat.le_max_left ..)

/-- **One buffer**, from a word on at which no vector is cut. -/
theorem Covers.bufferLoop (hdistinct : Distinct state) (h : Covers state (Seen state buffer offset) t)
    (hbuffer : buffer < numTransformFeedbackBuffers) (hoffset : offset ≤ (state buffer).varyingCount)
    (hstart : ∀ k, k + 1 = offset → offset < (state buffer).varyingCount → ¬Joined state buffer k) :
    Covers state (Seen state (buffer + 1) 0) (bufferLoop (state buffer) buffer offset t) := by
  induction offset, t using bufferLoop.induct (state buffer) buffer with
  | case1 offset t hlt ih =>
    obtain ⟨hle, hlast, hinner, hend⟩ := entryEnd_spec hlt
    rw [TransformFeedback.bufferLoop, dif_pos hlt]
    refine ih (h.addEntry hdistinct hbuffer hle hlast hinner fun k hk => hstart k hk hlt) hlast fun k hk
      hmore => ?_
    rw [Nat.succ.inj hk]
    exact hend hmore
  | case2 offset t hge =>
    have hseen : Seen state (buffer + 1) 0 = Seen state buffer offset := by
      funext b k
      refine propext ⟨?_, ?_⟩
      · rintro (⟨hb, hk⟩ | ⟨-, hk⟩)
        · rcases Nat.lt_succ_iff_lt_or_eq.mp hb with hb | rfl
          · exact .inl ⟨hb, hk⟩
          · exact .inr ⟨rfl, by omega⟩
        · exact absurd hk (Nat.not_lt_zero k)
      · rintro (⟨hb, hk⟩ | ⟨rfl, hk⟩)
        · exact .inl ⟨Nat.lt_succ_of_lt hb, hk⟩
        · exact .inl ⟨Nat.lt_succ_self b, by omega⟩
    rw [TransformFeedback.bufferLoop, dif_neg hge, hseen]
    exact h

/-- **The table** covers the layout. -/
theorem covers_make (hdistinct : Distinct state) :
    ∃ t, makeTransformFeedbackVaryings state = (t.xfb, t.count + 1) ∧
    Covers state (Listed state) t := by
  refine ⟨_, rfl, ?_⟩
  have hloop : ∀ n ≤ numTransformFeedbackBuffers, Covers state (Seen state n 0)
      ((List.range n).foldl (fun t buffer => TransformFeedback.bufferLoop (state buffer) buffer 0 t)
        ⟨fun _ => ⟨0, 0, 0, 0⟩, 0⟩) := by
    intro n
    induction n with
    | zero =>
      intro _
      have hnone : ∀ b k, ¬Seen state 0 0 b k := by
        rintro b k (⟨hb, -⟩ | ⟨-, hk⟩)
        · exact Nat.not_lt_zero b hb
        · exact Nat.not_lt_zero k hk
      exact ⟨fun a ha => absurd ha (Nat.lt_irrefl 0), fun a j hj => absurd hj (Nat.not_lt_zero j),
        fun a j hj => absurd hj (Nat.not_lt_zero _), fun b k hk => absurd hk (hnone b k),
        fun b k hk => absurd hk (hnone b (k + 1)), fun a ha => absurd ha (Nat.lt_irrefl 0)⟩
    | succ n ih =>
      intro hn
      rw [List.range_succ, List.foldl_append]
      exact (ih (Nat.le_of_succ_le hn)).bufferLoop hdistinct hn (Nat.zero_le _) fun k hk => absurd hk
        (Nat.succ_ne_zero k)
  have hlisted : Listed state = Seen state numTransformFeedbackBuffers 0 := by
    funext b k
    refine propext ⟨.inl, ?_⟩
    rintro (h | ⟨-, hk⟩)
    · exact h
    · exact absurd hk (Nat.not_lt_zero k)
  rw [hlisted]
  exact hloop _ (Nat.le_refl _)

theorem Describes.inOrder (hdistinct : Distinct state)
    (h : Describes state (makeTransformFeedbackVaryings state)) : InOrder state := by
  obtain ⟨t, ht, hcovers⟩ := covers_make hdistinct
  rw [ht] at h
  intro b k hk hjoined
  obtain ⟨a, j, hj, hb, hoff⟩ := hcovers.joined b k hk hjoined
  have h1 := (h.1 b k (a + j)).mp ⟨a, j, Nat.lt_of_succ_lt hj, hb, hoff, rfl⟩
  have h2 := (h.1 b (k + 1) (a + (j + 1))).mp ⟨a, j + 1, hj, hb, congrArg Nat.succ hoff, rfl⟩
  rw [h1.2, h2.2]
  rfl

/-- **The table describes the layout** exactly where the components of a vector that are in consecutive
  words
are in order. -/
theorem describes_iff (state : Nat → Layout) (hdistinct : Distinct state) :
    Describes state (makeTransformFeedbackVaryings state) ↔ InOrder state := by
  refine ⟨fun h => h.inOrder hdistinct, fun horder => ?_⟩
  obtain ⟨t, ht, hcovers⟩ := covers_make hdistinct
  rw [ht]
  have hattr : ∀ a j, j < (t.xfb a).components →
      (state (t.xfb a).buffer).getAttribute ((t.xfb a).offset / 4 + j) = a + j := by
    intro a j hj
    induction j with
    | zero => exact hcovers.first a hj
    | succ j ih =>
      have hnext : (state (t.xfb a).buffer).getAttribute ((t.xfb a).offset / 4 + j + 1) =
          (state (t.xfb a).buffer).getAttribute ((t.xfb a).offset / 4 + j) + 1 :=
        horder _ _ (hcovers.within a (j + 1) hj) (hcovers.steps a j hj)
      rw [ih (Nat.lt_of_succ_lt hj)] at hnext
      exact hnext
  refine ⟨fun b k attr => ⟨?_, ?_⟩, fun a ha => Nat.lt_succ_of_le (hcovers.count_le a ha)⟩
  · rintro ⟨a, j, hj, rfl, rfl, rfl⟩
    exact ⟨hcovers.within a j hj, hattr a j hj⟩
  · rintro ⟨hlisted, rfl⟩
    obtain ⟨a, j, hj, rfl, rfl⟩ := hcovers.covered b k hlisted
    exact ⟨a, j, hj, rfl, rfl, (hattr a j hj).symm⟩

/-- Two words of `gl_Position`, the second of which is its component `second`. -/
def positionWords (second : Nat) : Nat → Layout
  | 0 => ⟨2, 8, fun k => if k = 0 then 28 else second⟩
  | _ => ⟨0, 0, fun _ => 0⟩

theorem words_positionWords {second : Nat} :
    ∀ b k, Listed (positionWords second) b k → b = 0 ∧ (k = 0 ∨ k = 1) := by
  rintro (- | b) k ⟨-, hk⟩
  · exact ⟨rfl, by simp only [positionWords] at hk; omega⟩
  · exact absurd hk (Nat.not_lt_zero k)

theorem distinct_positionWords {second : Nat} (h : second ≠ 28) : Distinct (positionWords second) := by
  intro b k b' k' hbk hbk' he
  obtain ⟨rfl, rfl | rfl⟩ := words_positionWords b k hbk <;>
    obtain ⟨rfl, rfl | rfl⟩ := words_positionWords b' k' hbk'
  · exact ⟨rfl, rfl⟩
  · exact absurd he.symm h
  · exact absurd he h
  · exact ⟨rfl, rfl⟩

theorem describes_position :
    Describes (positionWords 29) (makeTransformFeedbackVaryings (positionWords 29)) := by
  refine (describes_iff _ (distinct_positionWords (by decide))).mpr ?_
  intro b k hk _
  obtain ⟨rfl, hk⟩ := words_positionWords b (k + 1) hk
  rw [show k = 0 by omega]
  rfl

/-- The components 0 and 2 of `gl_Position` make one entry that stands for 0 and 1. -/
theorem not_describes_skipped : ¬∀ state, (∀ b, (state b).varyingCount ≤ 128) → Distinct state →
    Started state → Describes state (makeTransformFeedbackVaryings state) := by
  intro h
  have hle : ∀ b, (positionWords 30 b).varyingCount ≤ 128
    | 0 => by decide
    | b + 1 => Nat.zero_le 128
  have hdistinct : Distinct (positionWords 30) := distinct_positionWords (by decide)
  have hjoined : Joined (positionWords 30) 0 0 := ⟨by decide, by decide⟩
  have hstarted : Started (positionWords 30) := by
    intro b k hk _ hfirst
    obtain ⟨rfl, rfl | rfl⟩ := words_positionWords b k hk
    · rfl
    · exact absurd hjoined (hfirst 0 rfl)
  have hnext := (h _ hle hdistinct hstarted).inOrder hdistinct 0 0 ⟨by decide, by decide⟩ hjoined
  revert hnext
  decide

end Yuzu.VideoCore.TransformFeedback
