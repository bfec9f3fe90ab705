/-
  File:      Yuzu/VideoCore/VpxRoundTrip.lean
  Subject:   When `VpxRangeEncoder` and the boolean decoder round-trip: exactly when the code has no
             carry into bytes that are complete.

  * `run_of_noCarry`: without a carry every `Write` succeeds, and the bytes are those of the exact code.
  * `clean_of_run`: a run that still adds a byte had no carry pending before.
  * `readAll_spec`: the decoder on the bytes of the code reads the symbols back, since the final low end
    lies in the interval after each of them.
-/
import Mathlib.Data.List.Induction
import Yuzu.VideoCore.VpxCode

namespace Yuzu.VideoCore.Vpx

open List Option

open VpxRangeEncoder (writeAll blank marker endSymbols Symbol encode)

variable {e e' : VpxRangeEncoder} {c d : CodeInterval} {bit : Bool} {p n i k : Nat} {l rest : List (Bool × Nat)}
  {a : Bool × Nat}

/-! ## 1. The exact code of a list -/

theorem range_codeSymbol (hr : 128 ≤ c.range) (hr' : c.range ≤ 255) (hp : p ≤ 255) :
    128 ≤ (codeSymbol c (bit, p)).range ∧ (codeSymbol c (bit, p)).range ≤ 255 := by
  have hb := @partOf_bounds bit _ _ hr hr' hp
  rw [codeSymbol_eq]
  exact (normShift_spec _ hb.2 hb.1).2

/-- A range of eight digits. -/
def Normal (c : CodeInterval) : Prop := 128 ≤ c.range ∧ c.range ≤ 255

theorem normal_foldl (hc : Normal c) (hl : ∀ a ∈ l, Valid a) : Normal (l.foldl codeSymbol c) := by
  induction l generalizing c with
  | nil => exact hc
  | cons a l ih =>
    exact ih (range_codeSymbol hc.1 hc.2 (hl a mem_cons_self).2)
      fun b hb => hl b (mem_cons_of_mem _ hb)

theorem inside_foldl (hc : Normal c) (hl : ∀ a ∈ l, Valid a) :
    CodeInterval.Inside c (l.foldl codeSymbol c) := by
  induction l generalizing c with
  | nil => exact .refl c
  | cons a l ih =>
    have ha := (hl a mem_cons_self).2
    exact (inside_codeSymbol hc.1 ha).trans
      (ih (range_codeSymbol hc.1 hc.2 ha) fun b hb => hl b (mem_cons_of_mem _ hb))

theorem normal_codeOf (hl : ∀ a ∈ l, Valid a) : Normal (codeOf l) :=
  normal_foldl ⟨by decide, by decide⟩ hl

theorem codeOf_append : codeOf (l ++ rest) = rest.foldl codeSymbol (codeOf l) := foldl_append

theorem codeOf_concat : codeOf (l ++ [a]) = codeSymbol (codeOf l) a := codeOf_append

theorem inside_take (hl : ∀ a ∈ l, Valid a) (i : Nat) : CodeInterval.Inside (codeOf (l.take i)) (codeOf l) := by
  have h := inside_foldl (c := codeOf (l.take i)) (l := l.drop i)
    (normal_codeOf fun a ha => hl a (mem_of_mem_take ha)) fun a ha => hl a (mem_of_mem_drop ha)
  rwa [← codeOf_append, take_append_drop] at h

theorem completeBytes_le (shifts : Nat) : 8 * completeBytes shifts ≤ 8 + shifts := by
  unfold completeBytes
  omega

theorem firstBytes_false (hn : 8 * n ≤ 8 + c.shifts) :
    firstBytes (codeSymbol c (false, p)) n = firstBytes c n :=
  CodeInterval.leading_scale (c := ⟨c.low, splitOf c.range p, c.shifts⟩) _ hn

/-! ## 2. Lists without a carry -/

theorem NoCarry.init (h : NoCarry (l ++ [a])) (hl : ∀ b ∈ l ++ [a], Valid b) : NoCarry l := by
  intro i hi
  have hl' : ∀ b ∈ l, Valid b := fun b hb => hl b (mem_append_left _ hb)
  have hwhole := h i (by rw [length_append]; omega)
  rw [take_append_of_le_length hi] at hwhole
  have hin := inside_take hl' i
  have hin' : CodeInterval.Inside (codeOf l) (codeOf (l ++ [a])) := by
    rw [codeOf_concat]
    exact inside_codeSymbol (normal_codeOf hl').1 (hl a (mem_append_right _ (mem_singleton_self a))).2
  have hn := completeBytes_le (codeOf (l.take i)).shifts
  have hle := hin.leading_le hn
  have hle' := hin'.leading_le (Nat.le_trans hn (Nat.add_le_add_left hin.shifts_le 8))
  unfold firstBytes at hwhole ⊢
  omega

theorem NoCarry.concat_false (h : NoCarry l) (hl : ∀ b ∈ l, Valid b) (p : Nat) :
    NoCarry (l ++ [(false, p)]) := by
  intro i hi
  rw [length_append, length_singleton] at hi
  rcases Nat.lt_or_eq_of_le hi with hi | rfl
  · have hi : i ≤ l.length := by omega
    have hin := inside_take hl i
    have hn := completeBytes_le (codeOf (l.take i)).shifts
    rw [take_append_of_le_length hi, codeOf_concat,
      firstBytes_false (Nat.le_trans hn (Nat.add_le_add_left hin.shifts_le 8))]
    exact h i hi
  · rw [take_of_length_le (by rw [length_append, length_singleton])]

theorem NoCarry.append_false (h : NoCarry l) (hl : ∀ b ∈ l, Valid b) (hp : Valid (false, p)) (k : Nat) :
    NoCarry (l ++ List.replicate k (false, p)) := by
  induction k with
  | zero => rwa [replicate_zero, append_nil]
  | succ k ih =>
    rw [replicate_succ', ← append_assoc]
    refine ih.concat_false (fun b hb => ?_) p
    rcases mem_append.mp hb with hb | hb
    · exact hl b hb
    · rw [eq_of_mem_replicate hb]
      exact hp

/-! ## 3. Runs of `Write` -/

theorem writeAll_append (e : VpxRangeEncoder) (l rest : List (Bool × Nat)) :
    e.writeAll (l ++ rest) = (e.writeAll l).bind (fun e' => e'.writeAll rest) := by
  induction l generalizing e with
  | nil => rfl
  | cons a l ih =>
    simp only [cons_append, writeAll]
    cases e.write a.1 a.2 with
    | none => rfl
    | some e' => exact ih e'

theorem writeAll_singleton (e : VpxRangeEncoder) (a : Bool × Nat) : e.writeAll [a] = e.write a.1 a.2 := by
  simp only [writeAll]
  cases e.write a.1 a.2 <;> rfl

/-- **The ways of a `Write`**: the bytes stay, or one is added and no carry is pending, or it throws
because the leading bytes of the code are not those written. -/
theorem Tracks.write_cases (h : Tracks e c) (ha : Valid a) :
    (∃ e', e.write a.1 a.2 = some e' ∧ Tracks e' (codeSymbol c a) ∧
      e'.baseStream.buffer = e.baseStream.buffer) ∨
    (firstBytes (codeSymbol c a) e.baseStream.buffer.length = bigEndian 256 e.baseStream.buffer ∧
      ∃ e' byte, e.write a.1 a.2 = some e' ∧ Tracks e' (codeSymbol c a) ∧
        e'.baseStream.buffer = e.baseStream.buffer ++ [byte] ∧ Clean e' (codeSymbol c a)) ∨
    (firstBytes (codeSymbol c a) e.baseStream.buffer.length ≠ bigEndian 256 e.baseStream.buffer ∧
      e.write a.1 a.2 = none) := by
  obtain ⟨bit, p⟩ := a
  have hp : p ≤ 255 := ha.2
  have hfirst := @Tracks.firstBytes_write _ _ bit _ h hp
  rcases Nat.lt_or_ge (window e c + shiftOf c bit p) 32 with hw | hw
  · obtain ⟨e', hrun, hstream, htracks⟩ := h.write_quiet hp hw
    exact .inl ⟨e', hrun, htracks, by rw [hstream]⟩
  · rcases Nat.lt_or_ge (lowAfter e bit p) (2 ^ window e c) with hlow | hlow
    · obtain ⟨e', byte, hrun, hbuffer, htracks, hclean⟩ := h.write_byte hp hw hlow
      refine .inr (.inl ⟨?_, e', byte, hrun, htracks, hbuffer, hclean⟩)
      rw [hfirst, Nat.div_eq_of_lt hlow, Nat.add_zero]
    · refine .inr (.inr ⟨?_, h.write_carry hp hw hlow⟩)
      have hpos : 0 < lowAfter e bit p / 2 ^ window e c := Nat.div_pos hlow (Nat.two_pow_pos _)
      omega

/-- **Without a carry** every `Write` succeeds, and the bytes are those of the code. -/
theorem run_of_noCarry (l : List (Bool × Nat)) (hl : ∀ a ∈ l, Valid a) (hn : NoCarry l) :
    ∃ e, blank.writeAll l = some e ∧ Tracks e (codeOf l) ∧ Clean e (codeOf l) := by
  induction l using List.reverseRecOn with
  | nil => exact ⟨blank, rfl, tracks_blank, rfl⟩
  | append_singleton l a ih =>
    obtain ⟨e, hrun, htracks, hclean⟩ := ih (fun b hb => hl b (mem_append_left _ hb)) (hn.init hl)
    have ha := hl a (mem_append_right _ (mem_singleton_self a))
    -- the bytes complete before the last symbol are still those of the code after it
    have hsame : firstBytes (codeOf (l ++ [a])) e.baseStream.buffer.length =
        bigEndian 256 e.baseStream.buffer := by
      have hlast := hn l.length (by rw [length_append]; omega)
      rw [take_left, ← htracks.length_eq] at hlast
      rw [← hlast]
      exact hclean
    have hstep : blank.writeAll (l ++ [a]) = e.write a.1 a.2 := by
      rw [writeAll_append, hrun, bind_some, writeAll_singleton]
    rw [hstep, codeOf_concat]
    rw [codeOf_concat] at hsame
    rcases htracks.write_cases ha with ⟨e', hw, ht, hb⟩ | ⟨-, e', byte, hw, ht, -, hc⟩ | ⟨hne, -⟩
    · exact ⟨e', hw, ht, by rw [Clean, hb]; exact hsame⟩
    · exact ⟨e', hw, ht, hc⟩
    · exact absurd hsame hne

theorem Tracks.clean_of_later (h : Tracks e c) (hin : CodeInterval.Inside c d)
    (hd : firstBytes d e.baseStream.buffer.length = bigEndian 256 e.baseStream.buffer) : Clean e c := by
  have hle := hin.leading_le h.length_le
  have hfirst := h.firstBytes_eq
  unfold Clean
  unfold firstBytes at *
  generalize e.lowValue / 2 ^ window e c = carry at hfirst
  omega

/-- **A run that still adds a byte** had no carry pending before, and keeps the bytes. -/
theorem Tracks.clean_of_run (h : Tracks e c) (hl : ∀ a ∈ rest, Valid a) (hrun : e.writeAll rest = some e') :
    Tracks e' (rest.foldl codeSymbol c) ∧ e.baseStream.buffer <+: e'.baseStream.buffer ∧
      (e.baseStream.buffer.length < e'.baseStream.buffer.length → Clean e c) := by
  induction rest generalizing e c with
  | nil =>
    obtain rfl : e = e' := some.inj hrun
    exact ⟨h, prefix_rfl, fun hlt => absurd hlt (Nat.lt_irrefl _)⟩
  | cons a rest ih =>
    have ha := hl a mem_cons_self
    have hl' : ∀ b ∈ rest, Valid b := fun b hb => hl b (mem_cons_of_mem _ hb)
    have hin : CodeInterval.Inside c (codeSymbol c a) := inside_codeSymbol h.range_ge ha.2
    simp only [writeAll] at hrun
    rcases h.write_cases ha with ⟨e1, hw, ht, hb⟩ | ⟨hfirst, e1, byte, hw, ht, hb, -⟩ | ⟨-, hw⟩
    · rw [hw] at hrun
      obtain ⟨htracks, hpre, hclean⟩ := ih ht hl' hrun
      rw [hb] at hpre hclean
      refine ⟨htracks, hpre, fun hlt => h.clean_of_later hin ?_⟩
      have := hclean hlt
      rwa [Clean, hb] at this
    · rw [hw] at hrun
      obtain ⟨htracks, hpre, -⟩ := ih ht hl' hrun
      refine ⟨htracks, (prefix_append _ [byte]).trans (hb ▸ hpre), fun _ => h.clean_of_later hin hfirst⟩
    · rw [hw] at hrun
      cases hrun

/-! ## 4. `End` -/

theorem half_spec : ∀ r < 256, 128 ≤ r → (r < 255 → normShift (partOf r halfProbability false) = 1) ∧
      partOf r halfProbability false * 2 ^ normShift (partOf r halfProbability false) < 255 := by
  decide +kernel

theorem shifts_half (hc : Normal c) (k : Nat) :
    c.shifts + k ≤ ((List.replicate (k + 1) (false, halfProbability)).foldl codeSymbol c).shifts ∧
      (c.range < 255 → c.shifts + (k + 1) ≤
        ((List.replicate (k + 1) (false, halfProbability)).foldl codeSymbol c).shifts) := by
  have hshifts : (codeSymbol c (false, halfProbability)).shifts =
      c.shifts + normShift (partOf c.range halfProbability false) := by rw [codeSymbol_eq]
  have hhalf := half_spec c.range (Nat.lt_succ_of_le hc.2) hc.1
  induction k generalizing c with
  | zero =>
    rw [replicate_one, foldl_cons, foldl_nil, hshifts]
    exact ⟨Nat.le_add_right _ _, fun hlt => by rw [hhalf.1 hlt]⟩
  | succ k ih =>
    have hnormal : Normal (codeSymbol c (false, halfProbability)) :=
      range_codeSymbol hc.1 hc.2 (by decide)
    have hnext := (ih hnormal (by rw [codeSymbol_eq]) (half_spec _ (Nat.lt_succ_of_le hnormal.2) hnormal.1)).2
      (by rw [codeSymbol_eq]; exact hhalf.2)
    rw [replicate_succ, foldl_cons]
    refine ⟨by omega, fun hlt => ?_⟩
    rw [hhalf.1 hlt] at hshifts
    omega

theorem valid_half : Valid (false, halfProbability) := ⟨by decide, by decide⟩

theorem valid_endSymbols : ∀ a ∈ endSymbols, Valid a := by
  intro a ha
  rw [eq_of_mem_replicate ha]
  exact valid_half

theorem shifts_endSymbols (hc : Normal c) : c.shifts + 31 ≤ (endSymbols.foldl codeSymbol c).shifts :=
  (shifts_half hc 31).1

/-! ## 5. The decoder -/

/-- The bits of a buffer. -/
def bitsOf (buffer : List Nat) : List Nat := buffer.flatMap byteBits

theorem byteBits_spec : ∀ byte < 256, bigEndian 2 (byteBits byte) = byte := by
  decide +kernel

theorem length_byteBits (byte : Nat) : (byteBits byte).length = 8 := by
  simp only [byteBits, length_map, length_cons, length_nil]

theorem bitsOf_cons (byte : Nat) (buffer : List Nat) :
    bitsOf (byte :: buffer) = byteBits byte ++ bitsOf buffer := flatMap_cons

theorem length_bitsOf (buffer : List Nat) : (bitsOf buffer).length = 8 * buffer.length := by
  induction buffer with
  | nil => rfl
  | cons byte buffer ih =>
    rw [bitsOf_cons, length_append, ih, length_byteBits, length_cons, Nat.mul_add, Nat.add_comm]

variable {buffer : List Nat}

theorem bitsOf_lt : ∀ b ∈ bitsOf buffer, b < 2 := by
  intro b hb
  obtain ⟨byte, -, hb⟩ := mem_flatMap.mp hb
  obtain ⟨j, -, rfl⟩ := mem_map.mp hb
  exact Nat.mod_lt _ (by decide)

theorem bigEndian_bitsOf (hb : ∀ byte ∈ buffer, byte < 256) :
    bigEndian 2 (bitsOf buffer) = bigEndian 256 buffer := by
  induction buffer using List.reverseRecOn with
  | nil => rfl
  | append_singleton buffer byte ih =>
    have hbyte := byteBits_spec byte (hb byte (mem_append_right _ (mem_singleton_self byte)))
    have hbits : bitsOf (buffer ++ [byte]) = bitsOf buffer ++ byteBits byte := by
      simp [bitsOf]
    rw [hbits, bigEndian_append, bigEndian_concat, hbyte,
      ih fun b hmem => hb b (mem_append_left _ hmem), length_byteBits,
      show 2 ^ 8 = 256 from rfl]

/-- **The first bits of the buffer** are the leading digits of the code. -/
theorem take_bitsOf {m : Nat} (hb : ∀ byte ∈ buffer, byte < 256)
    (hc : firstBytes c buffer.length = bigEndian 256 buffer) (hlen : 8 * buffer.length ≤ 8 + c.shifts)
    (hm : m ≤ 8 * buffer.length) : bigEndian 2 ((bitsOf buffer).take m) = c.leading 8 m := by
  have hdrop : ((bitsOf buffer).drop m).length = 8 * buffer.length - m := by
    rw [length_drop, length_bitsOf]
  have hdiv := @bigEndian_append_div 2 ((bitsOf buffer).take m) ((bitsOf buffer).drop m)
    fun b hmem => bitsOf_lt b (mem_of_mem_drop hmem)
  rw [take_append_drop, hdrop, bigEndian_bitsOf hb, ← hc, firstBytes,
    ← CodeInterval.leading_sub hlen (Nat.sub_le _ _)] at hdiv
  rw [← hdiv]
  congr 1
  omega

theorem normShift_step : ∀ r < 256, 0 < r →
    (128 ≤ r ∧ normShift r = 0) ∨ (r < 128 ∧ normShift r = normShift (r * 2) + 1) := by
  intro r hr hpos
  rcases Nat.lt_or_ge r 128 with hlt | hge
  · obtain ⟨-, hlow, hhigh⟩ := normShift_spec (r * 2) (by omega) (by omega)
    rw [Nat.mul_assoc, ← Nat.pow_succ'] at hlow hhigh
    exact .inr ⟨hlt, normShift_eq hr hlow hhigh⟩
  · exact .inl ⟨hge, normShift_eq hr (by omega) (by omega)⟩

/-- Renormalising shifts in as many bits as `norm_lut` says. -/
theorem renormalise_spec (s fuel : Nat) (b : BoolDecoder) (hs : normShift b.range = s) (hpos : 0 < b.range)
    (hlt : b.range < 256) (hfuel : s ≤ fuel) (hbits : s ≤ b.bits.length) :
    b.renormalise fuel = some ⟨b.value * 2 ^ s + bigEndian 2 (b.bits.take s), b.range * 2 ^ s, b.bits.drop s⟩ := by
  induction s generalizing fuel b with
  | zero =>
    have hge : ¬b.range < 128 := by
      rcases normShift_step b.range hlt hpos with ⟨hge, -⟩ | ⟨-, hn⟩ <;> omega
    cases fuel with
    | zero => simp [BoolDecoder.renormalise]
    | succ fuel => simp [BoolDecoder.renormalise, hge]
  | succ s ih =>
    obtain ⟨fuel, rfl⟩ : ∃ f, fuel = f + 1 := ⟨fuel - 1, by omega⟩
    obtain ⟨hlt', hn⟩ : b.range < 128 ∧ normShift b.range = normShift (b.range * 2) + 1 := by
      rcases normShift_step b.range hlt hpos with ⟨-, hn⟩ | h
      · omega
      · exact h
    obtain ⟨value, range, bits⟩ := b
    cases bits with
    | nil => exact absurd hbits (Nat.not_succ_le_zero s)
    | cons bit bits =>
      have hlen : s ≤ bits.length := Nat.le_of_succ_le_succ hbits
      have hnext := ih fuel ⟨value * 2 + bit, range * 2, bits⟩
        (by show normShift (range * 2) = s; exact Nat.succ.inj (hn.symm.trans hs))
        (by show 0 < range * 2; exact Nat.mul_pos hpos (by decide))
        (by show range * 2 < 256; exact (by have : range < 128 := hlt'; omega))
        (Nat.le_of_succ_le_succ hfuel) hlen
      have htake : bigEndian 2 (bit :: bits.take s) = bit * 2 ^ s + bigEndian 2 (bits.take s) := by
        rw [show bit :: bits.take s = [bit] ++ bits.take s from rfl, bigEndian_append, length_take,
          Nat.min_eq_left hlen]
        simp [bigEndian]
      simp only [BoolDecoder.renormalise]
      rw [if_pos hlt', hnext]
      simp only [take_succ_cons, drop_succ_cons, htake, Option.some.injEq, BoolDecoder.mk.injEq, and_true]
      constructor <;> ring

/-- The decoder reads the code `d` and stands behind the symbols that `c` is the code of. -/
structure Reads (bits : List Nat) (d c : CodeInterval) (b : BoolDecoder) : Prop where
  range_eq : b.range = c.range
  bits_eq : b.bits = bits.drop (8 + c.shifts)
  value_eq : b.value + c.low = d.leading 8 (8 + c.shifts)

section Reading

variable {bits : List Nat} {b : BoolDecoder} (hbits : ∀ m ≤ bits.length, bigEndian 2 (bits.take m) = d.leading 8 m)
include hbits

/-- **One symbol read**: the low end of the whole code lies in the part of its bit. -/
theorem Reads.readBool (h : Reads bits d c b) (hc : Normal c) (ha : Valid a)
    (hin : CodeInterval.Inside (codeSymbol c a) d) (hd : 0 < d.range)
    (hlen : 8 + (codeSymbol c a).shifts ≤ bits.length) :
    ∃ b', b.readBool a.2 = some (a.1, b') ∧ Reads bits d (codeSymbol c a) b' := by
  obtain ⟨bit, p⟩ := a
  have hp : p ≤ 255 := ha.2
  have hpart := @partOf_bounds bit _ _ hc.1 hc.2 hp
  have hsplit := splitOf_lt hc.1 hp
  have hnarrow : CodeInterval.Inside (c.narrow (splitOf c.range p) bit) d :=
    (CodeInterval.inside_scale _).trans hin
  have hmem := hnarrow.low_mem hd
  have hshifts : (c.narrow (splitOf c.range p) bit).shifts = c.shifts := by cases bit <;> rfl
  have hlead : d.leading 8 (8 + c.shifts) = d.low / 2 ^ (d.shifts - c.shifts) := by
    rw [CodeInterval.leading]
    congr 2
    omega
  have hvalue := h.value_eq
  rw [hlead] at hvalue
  rw [hshifts, ← hvalue] at hmem
  -- the value is on the side of the split that the bit says
  have hbit : decide (splitOf c.range p ≤ b.value) = bit ∧
      (if bit then splitOf c.range p else 0) ≤ b.value := by
    cases bit with
    | false =>
      simp only [CodeInterval.narrow, Bool.false_eq_true, if_false] at hmem
      exact ⟨decide_eq_false (by omega), Nat.zero_le _⟩
    | true =>
      simp only [CodeInterval.narrow, if_true] at hmem
      exact ⟨decide_eq_true (by omega), by simp only [if_true]; omega⟩
  rw [codeSymbol_eq] at hlen ⊢
  change 8 + (c.shifts + normShift (partOf c.range p bit)) ≤ bits.length at hlen
  have hrest : normShift (partOf c.range p bit) ≤ (bits.drop (8 + c.shifts)).length := by
    rw [length_drop]
    omega
  have hseven := (normShift_spec _ hpart.2 hpart.1).1
  have hrenorm := renormalise_spec (normShift (partOf c.range p bit)) 7
    ⟨b.value - (if bit then splitOf c.range p else 0), partOf c.range p bit, b.bits⟩ rfl hpart.1 hpart.2 hseven
    (by rw [h.bits_eq]; exact hrest)
  have hread : b.readBool p = some (bit,
      ⟨(b.value - (if bit then splitOf c.range p else 0)) * 2 ^ normShift (partOf c.range p bit) +
        bigEndian 2 (b.bits.take (normShift (partOf c.range p bit))),
      partOf c.range p bit * 2 ^ normShift (partOf c.range p bit),
      b.bits.drop (normShift (partOf c.range p bit))⟩) := by
    simp only [BoolDecoder.readBool, h.range_eq, hbit.1]
    have hnarrowed : (if bit = true then
        (⟨b.value - splitOf c.range p, c.range - splitOf c.range p, b.bits⟩ : BoolDecoder)
        else ⟨b.value, splitOf c.range p, b.bits⟩) =
        ⟨b.value - (if bit then splitOf c.range p else 0), partOf c.range p bit, b.bits⟩ := by
      cases bit <;> rfl
    rw [hnarrowed, hrenorm]
  refine ⟨_, hread, rfl, ?_, ?_⟩
  · show b.bits.drop _ = bits.drop (8 + (c.shifts + _))
    rw [h.bits_eq, drop_drop, Nat.add_assoc]
  · show (b.value - _) * 2 ^ _ + bigEndian 2 (b.bits.take _) + (c.low + _) * 2 ^ _ =
      d.leading 8 (8 + (c.shifts + _))
    rw [← hbits _ hlen, ← Nat.add_assoc, take_add, bigEndian_append, length_take,
      Nat.min_eq_left hrest, hbits _ (by omega), ← h.value_eq, h.bits_eq]
    have hsub := hbit.2
    generalize (if bit then splitOf c.range p else 0) = x at hsub ⊢
    obtain ⟨y, hy⟩ : ∃ y, b.value = x + y := ⟨b.value - x, by omega⟩
    rw [hy, Nat.add_sub_cancel_left]
    ring

/-- **All symbols read.** -/
theorem Reads.readAll (h : Reads bits d c b) (hc : Normal c) (hl : ∀ a ∈ l, Valid a)
    (hin : CodeInterval.Inside (l.foldl codeSymbol c) d) (hd : 0 < d.range)
    (hlen : 8 + (l.foldl codeSymbol c).shifts ≤ bits.length) :
    b.readAll (l.map Prod.snd) = some (l.map Prod.fst) := by
  induction l generalizing c b with
  | nil => rfl
  | cons a l ih =>
    have ha := hl a mem_cons_self
    have hl' : ∀ x ∈ l, Valid x := fun x hx => hl x (mem_cons_of_mem _ hx)
    have hnormal : Normal (codeSymbol c a) := range_codeSymbol hc.1 hc.2 ha.2
    have hlater := inside_foldl hnormal hl'
    have hshifts := hlater.shifts_le
    rw [foldl_cons] at hin hlen
    obtain ⟨b', hread, h'⟩ := h.readBool hbits hc ha (hlater.trans hin) hd (by omega)
    simp only [map_cons, BoolDecoder.readAll, hread, ih h' hnormal hl' hin hlen]

end Reading

/-! ## 6. The round trip -/

/-- **The round trip** of a list of symbols: the stream does not throw, and the decoder gives the marker
and the bits back. -/
def RoundTrips (symbols : List Symbol) : Prop :=
  ∃ buffer, encode symbols = some buffer ∧
    decode buffer (symbols.map Prod.snd) = some (false :: symbols.map Prod.fst)

/-- The marker and the symbols. -/
def marked (symbols : List Symbol) : List Symbol := marker ++ symbols

variable {symbols : List Symbol}

theorem valid_marked (hv : ∀ a ∈ symbols, Valid a) : ∀ a ∈ marked symbols, Valid a := by
  intro a ha
  rcases mem_append.mp ha with ha | ha
  · rw [mem_singleton.mp ha]
    exact valid_half
  · exact hv a ha

theorem encode_eq_some : encode symbols = some buffer ↔
      ∃ e, blank.writeAll (marked symbols ++ endSymbols) = some e ∧ e.baseStream.buffer = buffer := by
  unfold encode marked
  cases blank.writeAll (marker ++ symbols ++ endSymbols) <;> simp

/-- **Decoding the bytes of a code** gives the symbols that it begins with. -/
theorem decode_of_tracks (hv : ∀ a ∈ symbols, Valid a)
    (htracks : Tracks e (codeOf (marked symbols ++ endSymbols)))
    (hclean : Clean e (codeOf (marked symbols ++ endSymbols))) :
    decode e.baseStream.buffer (symbols.map Prod.snd) = some (false :: symbols.map Prod.fst) := by
  have hmarked := valid_marked hv
  have hnormal := normal_codeOf hmarked
  have hend : (codeOf (marked symbols)).shifts + 31 ≤ (codeOf (marked symbols ++ endSymbols)).shifts := by
    rw [codeOf_append]
    exact shifts_endSymbols hnormal
  have hinside : CodeInterval.Inside (codeOf (marked symbols)) (codeOf (marked symbols ++ endSymbols)) := by
    rw [codeOf_append]
    exact inside_foldl hnormal valid_endSymbols
  have hlength := htracks.length_eq
  unfold completeBytes at hlength
  have hbits : ∀ m ≤ (bitsOf e.baseStream.buffer).length, bigEndian 2 ((bitsOf e.baseStream.buffer).take m) =
      (codeOf (marked symbols ++ endSymbols)).leading 8 m := by
    intro m hm
    rw [length_bitsOf] at hm
    exact take_bitsOf htracks.byte_lt hclean htracks.length_le hm
  have hlen : 8 + (codeOf (marked symbols)).shifts ≤ (bitsOf e.baseStream.buffer).length := by
    rw [length_bitsOf]
    omega
  have hstart : Reads (bitsOf e.baseStream.buffer) (codeOf (marked symbols ++ endSymbols)) ⟨0, 255, 0⟩
      ⟨bigEndian 2 ((bitsOf e.baseStream.buffer).take 8), 255, (bitsOf e.baseStream.buffer).drop 8⟩ :=
    ⟨rfl, rfl, hbits 8 (by omega)⟩
  have hpos : 0 < (codeOf (marked symbols ++ endSymbols)).range :=
    Nat.lt_of_lt_of_le (by decide) htracks.range_ge
  have hread := hstart.readAll hbits ⟨by decide, by decide⟩ hmarked hinside hpos hlen
  have hinit : BoolDecoder.initBool e.baseStream.buffer =
      some ⟨bigEndian 2 ((bitsOf e.baseStream.buffer).take 8), 255, (bitsOf e.baseStream.buffer).drop 8⟩ :=
    if_pos (show 8 ≤ (bitsOf e.baseStream.buffer).length by omega)
  rw [decode, hinit]
  exact hread

theorem roundTrips_of_noCarry (hv : ∀ a ∈ symbols, Valid a)
    (hn : NoCarry (marked symbols)) : RoundTrips symbols := by
  have hmarked := valid_marked hv
  have hall : ∀ a ∈ marked symbols ++ endSymbols, Valid a := by
    intro a ha
    rcases mem_append.mp ha with ha | ha
    · exact hmarked a ha
    · exact valid_endSymbols a ha
  obtain ⟨e, hrun, htracks, hclean⟩ := run_of_noCarry _ hall (hn.append_false hmarked valid_half 32)
  exact ⟨_, encode_eq_some.mpr ⟨e, hrun, rfl⟩, decode_of_tracks hv htracks hclean⟩

theorem Tracks.of_run (hl : ∀ a ∈ l, Valid a) (h : blank.writeAll l = some e) : Tracks e (codeOf l) :=
  (tracks_blank.clean_of_run hl h).1

theorem clean_of_end (hl : ∀ a ∈ l, Valid a) (hrest : ∀ a ∈ rest, Valid a) (h : blank.writeAll l = some e)
    (hend : e.writeAll (rest ++ endSymbols) = some e') : Clean e (codeOf l) := by
  have htracks := Tracks.of_run hl h
  have hrest' : ∀ a ∈ rest ++ endSymbols, Valid a := by
    intro a ha
    rcases mem_append.mp ha with ha | ha
    · exact hrest a ha
    · exact valid_endSymbols a ha
  obtain ⟨htracks', -, hclean⟩ := htracks.clean_of_run hrest' hend
  refine hclean ?_
  have hshifts := shifts_endSymbols (normal_foldl (normal_codeOf hl) hrest)
  have hmono := (inside_foldl (normal_codeOf hl) hrest).shifts_le
  rw [← foldl_append] at hshifts
  rw [htracks.length_eq, htracks'.length_eq]
  unfold completeBytes
  omega

theorem Clean.firstBytes_prefix (hclean : Clean e c) (htracks : Tracks e c)
    (hpre : buffer <+: e.baseStream.buffer) : firstBytes c buffer.length = bigEndian 256 buffer := by
  obtain ⟨later, hlater⟩ := hpre
  have hlen := htracks.length_le
  have hlt : ∀ byte ∈ later, byte < 256 :=
    fun byte hb => htracks.byte_lt byte (hlater ▸ mem_append_right _ hb)
  have hdiv := bigEndian_append_div (l := buffer) hlt
  have hpow : 256 ^ later.length = 2 ^ (8 * later.length) := by
    rw [Nat.pow_mul]
  rw [Clean, ← hlater, firstBytes] at hclean
  rw [← hlater, length_append] at hlen
  rw [← hdiv, ← hclean, hpow, length_append, ← CodeInterval.leading_sub hlen (by omega), firstBytes]
  congr 1
  omega

/-- **A run to the end** had no carry. -/
theorem noCarry_of_encode (hv : ∀ a ∈ symbols, Valid a)
    (h : encode symbols = some buffer) : NoCarry (marked symbols) := by
  obtain ⟨e, hrun, -⟩ := encode_eq_some.mp h
  have hmarked := valid_marked hv
  intro i hi
  have htake : ∀ a ∈ (marked symbols).take i, Valid a := fun a ha => hmarked a (mem_of_mem_take ha)
  have hdrop : ∀ a ∈ (marked symbols).drop i, Valid a := fun a ha => hmarked a (mem_of_mem_drop ha)
  -- the encoder after the first symbols, and after all of them
  rw [writeAll_append, bind_eq_some_iff] at hrun
  obtain ⟨whole, hwhole, hend⟩ := hrun
  have hsplit := hwhole
  rw [← take_append_drop i (marked symbols), writeAll_append, bind_eq_some_iff] at hsplit
  obtain ⟨part, hpart, hlater⟩ := hsplit
  have hpartEnd : part.writeAll ((marked symbols).drop i ++ endSymbols) = some e := by
    rw [writeAll_append, hlater]
    exact hend
  have hpartTracks := Tracks.of_run htake hpart
  have hpre := (hpartTracks.clean_of_run hdrop hlater).2.1
  have hpartClean := clean_of_end htake hdrop hpart hpartEnd
  have hclean : Clean whole (codeOf (marked symbols)) :=
    @clean_of_end _ _ _ ([]) hmarked (fun _ ha => absurd ha not_mem_nil) hwhole hend
  have hfirst := hclean.firstBytes_prefix (Tracks.of_run hmarked hwhole) hpre
  rw [← hpartTracks.length_eq, hfirst]
  exact hpartClean

/-- **When the encoder round-trips**: exactly when the code of the marker and the symbols has no carry
into a byte that is complete. -/
theorem roundTrips_iff (symbols : List Symbol) (hv : ∀ a ∈ symbols, Valid a) :
    RoundTrips symbols ↔ NoCarry (marked symbols) :=
  ⟨fun ⟨_, h, _⟩ => noCarry_of_encode hv h, roundTrips_of_noCarry hv⟩

instance : DecidablePred Valid := fun symbol => inferInstanceAs (Decidable (1 ≤ symbol.2 ∧ symbol.2 ≤ 255))

instance (symbols : List Symbol) : Decidable (NoCarry symbols) :=
  inferInstanceAs (Decidable (∀ i ≤ symbols.length,
    firstBytes (codeOf (symbols.take i)) (completeBytes (codeOf (symbols.take i)).shifts) =
      firstBytes (codeOf symbols) (completeBytes (codeOf (symbols.take i)).shifts)))

/-- Symbols of uneven probabilities with a byte complete before the last. -/
def unevenSymbols : List Symbol := [(true, 10), (false, 200), (true, 255), (true, 3), (true, 255), (true, 255)]

theorem roundTrips_iff_uneven : RoundTrips unevenSymbols :=
  (roundTrips_iff unevenSymbols (by decide)).mpr (by decide +kernel)

/-- Twenty-one bits, each with probability 213, whose code carries into a complete byte. -/
def carrySymbols : List Symbol :=
  [false, true, true, false, false, true, true, false, false, false, true, false, false, false, false, true,
    false, true, true, false, true].map (fun bit => (bit, 213))

/-- **A carry throws**: the walk back from the end of the stream reads behind it. -/
theorem not_roundTrips_of_carry : ¬∀ symbols : List Symbol, (∀ a ∈ symbols, Valid a) → RoundTrips symbols := by
  intro h
  obtain ⟨buffer, hencode, -⟩ := h carrySymbols (by decide)
  have hthrows : encode carrySymbols = none := by decide +kernel
  rw [hthrows] at hencode
  cases hencode

end Yuzu.VideoCore.Vpx
