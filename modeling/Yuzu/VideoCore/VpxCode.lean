/-
  File:      Yuzu/VideoCore/VpxCode.lean
  Subject:   What one `Write` of `VpxRangeEncoder` does to the bytes and the window, measured by the exact
             code.

  * `Tracks`: the bytes written and the window behind them are the low end of the exact interval. The
    window may hold a carry that the bytes do not have yet.
  * `Clean`: it holds none.
  * `write_cases`: a `Write` keeps the bytes, or adds one if there is no carry, or throws.
-/
import Yuzu.VideoCore.VpxRangeEncoder

namespace Yuzu.VideoCore.Vpx

open List

variable {e e' : VpxRangeEncoder} {c : CodeInterval} {bit : Bool} {p r : Nat}

/-! ## 1. Splits and shifts -/

/-- A probability that `Write` is given. -/
def Valid (symbol : Bool × Nat) : Prop := 1 ≤ symbol.2 ∧ symbol.2 ≤ 255

theorem splitOf_pos : 0 < splitOf r p := by
  unfold splitOf
  omega

theorem splitOf_lt (hr : 128 ≤ r) (hp : p ≤ 255) : splitOf r p < r := by
  have hmul : (r - 1) * p ≤ (r - 1) * 255 := Nat.mul_le_mul_left _ hp
  unfold splitOf
  omega

theorem normLut_spec : (normLut.zipIdx.all fun e => decide (e.2 = 0 ∨ e.1 ≤ 7 ∧
    128 ≤ e.2 * 2 ^ e.1 ∧ e.2 * 2 ^ e.1 ≤ 255)) = true := by
  decide +kernel

theorem normShift_spec : ∀ r < 256, 0 < r →
    normShift r ≤ 7 ∧ 128 ≤ r * 2 ^ normShift r ∧ r * 2 ^ normShift r ≤ 255 := by
  intro r hr hpos
  have hlen : normLut.length = 256 := by decide +kernel
  have hmem : (normShift r, r) ∈ normLut.zipIdx := by
    rw [List.mk_mem_zipIdx_iff_getElem?, normShift, List.getD_eq_getElem?_getD,
      List.getElem?_eq_getElem (by omega)]
    rfl
  exact (of_decide_eq_true (List.all_eq_true.mp normLut_spec _ hmem)).resolve_left hpos.ne'

theorem normShift_eq {s : Nat} (hr : r < 256) (hlow : 128 ≤ r * 2 ^ s) (hhigh : r * 2 ^ s ≤ 255) :
    normShift r = s := by
  have hpos : 0 < r := Nat.pos_of_ne_zero fun h => by rw [h, Nat.zero_mul] at hlow; omega
  obtain ⟨-, hlow', hhigh'⟩ := normShift_spec r hr hpos
  have hdouble {i j : Nat} (hij : i < j) (h : 128 ≤ r * 2 ^ i) : 256 ≤ r * 2 ^ j :=
    calc 256 ≤ r * 2 ^ i * 2 := by omega
      _ = r * 2 ^ (i + 1) := Nat.mul_assoc r _ 2
      _ ≤ r * 2 ^ j := Nat.mul_le_mul_left r (Nat.pow_le_pow_right (by decide) hij)
  rcases Nat.lt_trichotomy (normShift r) s with hlt | heq | hlt
  · have := hdouble hlt hlow'
    omega
  · exact heq
  · have := hdouble hlt hlow
    omega

/-- The part of the range that a symbol takes. -/
def partOf (r p : Nat) (bit : Bool) : Nat := if bit then r - splitOf r p else splitOf r p

theorem partOf_bounds (hr : 128 ≤ r) (hr' : r ≤ 255) (hp : p ≤ 255) :
    0 < partOf r p bit ∧ partOf r p bit < 256 := by
  have hpos := splitOf_pos (r := r) (p := p)
  have hlt := splitOf_lt hr hp
  unfold partOf
  split <;> omega

theorem codeSymbol_eq : codeSymbol c (bit, p) =
    ⟨(c.low + if bit then splitOf c.range p else 0) * 2 ^ normShift (partOf c.range p bit),
      partOf c.range p bit * 2 ^ normShift (partOf c.range p bit),
      c.shifts + normShift (partOf c.range p bit)⟩ := by
  cases bit <;> rfl

theorem inside_codeSymbol (hr : 128 ≤ c.range) (hp : p ≤ 255) :
    CodeInterval.Inside c (codeSymbol c (bit, p)) :=
  (CodeInterval.inside_narrow (Nat.le_of_lt (splitOf_lt hr hp)) bit).trans (CodeInterval.inside_scale _)

/-! ## 2. The carry -/

/-- **The walk back throws**: at the end of the stream `Seek(-1)` does not move. -/
theorem propagateCarry_eq_none {s : Stream} (h : s.position = s.buffer.length) : propagateCarry s = none := by
  have hseek : (s.seekCurrent (-1)).position = s.buffer.length ∧ (s.seekCurrent (-1)).buffer = s.buffer := by
    unfold Stream.seekCurrent Stream.seekSet
    split
    · next hneg => exact ⟨by show 0 = _; omega, rfl⟩
    · rw [if_pos (by omega)]
      exact ⟨rfl, rfl⟩
  have hread : (s.seekCurrent (-1)).peekByte = none := by
    rw [Stream.peekByte, Stream.readByte, hseek.1, hseek.2, List.getElem?_eq_none (Nat.le_refl _)]
  rw [propagateCarry, skipFull, hread]

theorem writeByte_end {s : Stream} (h : s.position = s.buffer.length) (byte : Nat) :
    s.writeByte byte = ⟨s.buffer ++ [byte], s.buffer.length + 1⟩ := by
  rw [Stream.writeByte, if_pos h, h]

/-! ## 3. The bytes and the window -/

/-- The digits in the window, without the carry. -/
def window (e : VpxRangeEncoder) (c : CodeInterval) : Nat := 8 + c.shifts - 8 * e.baseStream.buffer.length

/-- **The encoder tracks the exact code.** -/
structure Tracks (e : VpxRangeEncoder) (c : CodeInterval) : Prop where
  position_eq : e.baseStream.position = e.baseStream.buffer.length
  range_eq : e.range = c.range
  range_ge : 128 ≤ c.range
  range_le : c.range ≤ 255
  length_eq : e.baseStream.buffer.length = completeBytes c.shifts
  count_eq : e.count = window e c - 32
  low_eq : c.low = bigEndian 256 e.baseStream.buffer * 2 ^ window e c + e.lowValue
  low_le : e.lowValue + c.range ≤ 2 * 2 ^ window e c
  byte_lt : ∀ byte ∈ e.baseStream.buffer, byte < 256

/-- The bytes are the leading ones of the code: no carry is pending. -/
def Clean (e : VpxRangeEncoder) (c : CodeInterval) : Prop :=
  firstBytes c e.baseStream.buffer.length = bigEndian 256 e.baseStream.buffer

theorem tracks_blank : Tracks VpxRangeEncoder.blank ⟨0, 255, 0⟩ where
  position_eq := rfl
  range_eq := rfl
  range_ge := by decide
  range_le := by decide
  length_eq := rfl
  count_eq := rfl
  low_eq := rfl
  low_le := by decide
  byte_lt _ h := absurd h not_mem_nil

theorem Tracks.length_le (h : Tracks e c) : 8 * e.baseStream.buffer.length ≤ 8 + c.shifts := by
  rw [h.length_eq, completeBytes]
  omega

theorem Tracks.window_bounds (h : Tracks e c) : 8 ≤ window e c ∧ window e c ≤ 31 := by
  have hl := h.length_eq
  unfold completeBytes at hl
  unfold window
  omega

theorem firstBytes_eq (c : CodeInterval) (n : Nat) : firstBytes c n = c.low / 2 ^ (8 + c.shifts - 8 * n) := rfl

theorem Tracks.firstBytes_eq (h : Tracks e c) : firstBytes c e.baseStream.buffer.length =
    bigEndian 256 e.baseStream.buffer + e.lowValue / 2 ^ window e c := by
  rw [Vpx.firstBytes_eq, h.low_eq, Nat.mul_comm]
  exact Nat.mul_add_div (Nat.two_pow_pos _) _ _

/-! ## 4. One `Write` -/

/-- The window after the split is added. -/
def lowAfter (e : VpxRangeEncoder) (bit : Bool) (p : Nat) : Nat :=
  e.lowValue + if bit then splitOf e.range p else 0

/-- The facts every `Write` rests on. -/
structure Narrowed (e : VpxRangeEncoder) (c : CodeInterval) (bit : Bool) (p : Nat) : Prop where
  low_lt : lowAfter e bit p + partOf c.range p bit ≤ 2 * 2 ^ window e c
  low_mod : (if bit then (e.lowValue + splitOf e.range p) % 2 ^ 32 else e.lowValue) = lowAfter e bit p
  part_eq : (if bit then e.range - splitOf e.range p else splitOf e.range p) = partOf c.range p bit
  code_low : c.low + (if bit then splitOf c.range p else 0) =
    bigEndian 256 e.baseStream.buffer * 2 ^ window e c + lowAfter e bit p

theorem Tracks.narrowed (h : Tracks e c) (hp : p ≤ 255) : Narrowed e c bit p := by
  have hlt := splitOf_lt h.range_ge hp
  have hlow := h.low_le
  have hcode := h.low_eq
  have hrange := h.range_eq
  have hpow : 2 ^ window e c ≤ 2 ^ 31 := Nat.pow_le_pow_right (by decide) h.window_bounds.2
  cases bit with
  | false =>
    refine ⟨?_, ?_, ?_, ?_⟩ <;>
      simp only [lowAfter, partOf, Bool.false_eq_true, if_false, Nat.add_zero, hrange]
    · omega
    · exact hcode
  | true =>
    refine ⟨?_, ?_, ?_, ?_⟩ <;> simp only [lowAfter, partOf, if_true, hrange]
    · omega
    · exact Nat.mod_eq_of_lt (by omega)
    · omega

theorem carry_iff {low w : Nat} (hw : w ≤ 31) (hlow : low < 2 * 2 ^ w) :
    (low * 2 ^ (32 - w - 1) % 2 ^ 32) / 2 ^ 31 ≠ 0 ↔ 2 ^ w ≤ low := by
  have hpow : 2 ^ 31 = 2 ^ w * 2 ^ (32 - w - 1) := by
    rw [← Nat.pow_add]
    congr 1
    omega
  have hlt : low * 2 ^ (32 - w - 1) < 2 ^ 32 := by
    have hmul := Nat.mul_lt_mul_of_pos_right hlow (Nat.two_pow_pos (32 - w - 1))
    rw [Nat.mul_assoc, ← hpow] at hmul
    exact hmul
  rw [Nat.mod_eq_of_lt hlt, hpow, Nat.mul_div_mul_right _ _ (Nat.two_pow_pos _), Nat.div_ne_zero_iff]
  exact and_iff_right (Nat.pos_iff_ne_zero.mp (Nat.two_pow_pos w))

theorem masked_eq {low w : Nat} (hw : 8 ≤ w) (hw' : w ≤ 32) :
    low * 2 ^ (32 - w) % 2 ^ 32 % 2 ^ 24 = low % 2 ^ (w - 8) * 2 ^ (32 - w) := by
  have hpow : 2 ^ 24 = 2 ^ (w - 8) * 2 ^ (32 - w) := by
    rw [← Nat.pow_add]
    congr 1
    omega
  rw [Nat.mod_mod_of_dvd _ (by decide : 2 ^ 24 ∣ 2 ^ 32), hpow, Nat.mul_mod_mul_right]

/-- The shift of the `Write`. -/
def shiftOf (c : CodeInterval) (bit : Bool) (p : Nat) : Nat := normShift (partOf c.range p bit)

theorem Tracks.shift_spec (h : Tracks e c) (hp : p ≤ 255) : shiftOf c bit p ≤ 7 ∧
    128 ≤ partOf c.range p bit * 2 ^ shiftOf c bit p ∧ partOf c.range p bit * 2 ^ shiftOf c bit p ≤ 255 := by
  have hb := @partOf_bounds bit _ _ h.range_ge h.range_le hp
  exact normShift_spec _ hb.2 hb.1

/-- **A `Write` between two bytes.** -/
theorem Tracks.write_quiet (h : Tracks e c) (hp : p ≤ 255) (hw : window e c + shiftOf c bit p < 32) :
    ∃ e', e.write bit p = some e' ∧ e'.baseStream = e.baseStream ∧ Tracks e' (codeSymbol c (bit, p)) := by
  obtain ⟨hlow, hmod, hpart, hcode⟩ := @Tracks.narrowed _ _ bit _ h hp
  obtain ⟨hs, hge, hle⟩ := @Tracks.shift_spec _ _ bit _ h hp
  have hcount := h.count_eq
  have hlen := h.length_le
  have hwin : 8 + (c.shifts + shiftOf c bit p) - 8 * e.baseStream.buffer.length =
      window e c + shiftOf c bit p := by
    unfold window
    omega
  have hpow : 2 ^ (window e c + shiftOf c bit p) = 2 ^ window e c * 2 ^ shiftOf c bit p := Nat.pow_add _ _ _
  have hshifted : lowAfter e bit p * 2 ^ shiftOf c bit p + partOf c.range p bit * 2 ^ shiftOf c bit p ≤
      2 * 2 ^ (window e c + shiftOf c bit p) := by
    rw [← Nat.add_mul, hpow, ← Nat.mul_assoc]
    exact Nat.mul_le_mul_right _ hlow
  have hfits : lowAfter e bit p * 2 ^ shiftOf c bit p < 2 ^ 32 := by
    have : 2 ^ (window e c + shiftOf c bit p) ≤ 2 ^ 31 := Nat.pow_le_pow_right (by decide) (by omega)
    omega
  refine ⟨⟨e.baseStream, lowAfter e bit p * 2 ^ shiftOf c bit p, partOf c.range p bit * 2 ^ shiftOf c bit p,
    e.count + shiftOf c bit p⟩, ?_, rfl, ?_⟩
  · simp only [VpxRangeEncoder.write, hmod, hpart]
    rw [if_neg]
    · rw [show normShift (partOf c.range p bit) = shiftOf c bit p from rfl, Nat.mod_eq_of_lt hfits]
    · show ¬0 ≤ e.count + (shiftOf c bit p : Int)
      omega
  · rw [codeSymbol_eq]
    refine ⟨h.position_eq, rfl, hge, hle, ?_, ?_, ?_, ?_, h.byte_lt⟩
    · show e.baseStream.buffer.length = completeBytes (c.shifts + shiftOf c bit p)
      have hl := h.length_eq
      have hb := h.window_bounds
      unfold completeBytes at hl ⊢
      unfold window at hw hb
      omega
    · show e.count + (shiftOf c bit p : Int) = ((8 + (c.shifts + shiftOf c bit p) -
        8 * e.baseStream.buffer.length : Nat) : Int) - 32
      rw [hwin, hcount]
      omega
    · show (c.low + if bit then splitOf c.range p else 0) * 2 ^ shiftOf c bit p =
        bigEndian 256 e.baseStream.buffer * 2 ^ (8 + (c.shifts + shiftOf c bit p) -
          8 * e.baseStream.buffer.length) + lowAfter e bit p * 2 ^ shiftOf c bit p
      rw [hwin, hcode, hpow]
      ring
    · show lowAfter e bit p * 2 ^ shiftOf c bit p + partOf c.range p bit * 2 ^ shiftOf c bit p ≤
        2 * 2 ^ (8 + (c.shifts + shiftOf c bit p) - 8 * e.baseStream.buffer.length)
      rw [hwin]
      exact hshifted

theorem Tracks.firstBytes_write (h : Tracks e c) (hp : p ≤ 255) :
    firstBytes (codeSymbol c (bit, p)) e.baseStream.buffer.length =
      bigEndian 256 e.baseStream.buffer + lowAfter e bit p / 2 ^ window e c := by
  obtain ⟨hlow, hmod, hpart, hcode⟩ := @Tracks.narrowed _ _ bit _ h hp
  have hlen := h.length_le
  have hwin : 8 + (c.shifts + shiftOf c bit p) - 8 * e.baseStream.buffer.length =
      shiftOf c bit p + window e c := by
    unfold window
    omega
  rw [Vpx.firstBytes_eq, codeSymbol_eq]
  show (c.low + _) * 2 ^ shiftOf c bit p / 2 ^ (8 + (c.shifts + shiftOf c bit p) - _) = _
  rw [hwin, Nat.pow_add, Nat.mul_comm _ (2 ^ shiftOf c bit p), Nat.mul_div_mul_left _ _ (Nat.two_pow_pos _),
    hcode, Nat.mul_comm]
  exact Nat.mul_add_div (Nat.two_pow_pos _) _ _

/-- **A `Write` that completes a byte**, with no carry pending. -/
theorem Tracks.write_byte (h : Tracks e c) (hp : p ≤ 255) (hw : 32 ≤ window e c + shiftOf c bit p)
    (hlow : lowAfter e bit p < 2 ^ window e c) :
    ∃ e' byte, e.write bit p = some e' ∧ e'.baseStream.buffer = e.baseStream.buffer ++ [byte] ∧
      Tracks e' (codeSymbol c (bit, p)) ∧ Clean e' (codeSymbol c (bit, p)) := by
  obtain ⟨hlow', hmod, hpart, hcode⟩ := @Tracks.narrowed _ _ bit _ h hp
  obtain ⟨hs, hge, hle⟩ := @Tracks.shift_spec _ _ bit _ h hp
  have hcount := h.count_eq
  have hlen := h.length_le
  obtain ⟨hw8, hw31⟩ := h.window_bounds
  set w := window e c with hwdef
  set s := shiftOf c bit p with hsdef
  set low := lowAfter e bit p with hlowdef
  set part := partOf c.range p bit with hpartdef
  have hpow : 2 ^ w = 2 ^ (w - 8) * 256 := by
    rw [show (256 : Nat) = 2 ^ 8 from rfl, ← Nat.pow_add]
    congr 1
    omega
  have hbyte : low / 2 ^ (w - 8) < 256 := by
    rw [Nat.div_lt_iff_lt_mul (Nat.two_pow_pos _), Nat.mul_comm, ← hpow]
    exact hlow
  have hrest : low % 2 ^ (w - 8) < 2 ^ (w - 8) := Nat.mod_lt _ (Nat.two_pow_pos _)
  have hdiv := Nat.div_add_mod low (2 ^ (w - 8))
  -- what is left in the window, with all of the shift
  have hleft : low % 2 ^ (w - 8) * 2 ^ (32 - w) * 2 ^ (w + s - 32) = low % 2 ^ (w - 8) * 2 ^ s := by
    rw [Nat.mul_assoc, ← Nat.pow_add]
    congr 2
    omega
  have hpowS : 2 ^ (w - 8 + s) = 2 ^ (w - 8) * 2 ^ s := Nat.pow_add _ _ _
  have hleft_lt : low % 2 ^ (w - 8) * 2 ^ s < 2 ^ (w - 8 + s) := by
    rw [hpowS]
    exact Nat.mul_lt_mul_of_pos_right hrest (Nat.two_pow_pos s)
  have hfits : low % 2 ^ (w - 8) * 2 ^ s < 2 ^ 32 :=
    Nat.lt_of_lt_of_le hleft_lt (Nat.pow_le_pow_right (by decide) (by omega))
  have hpart_le : part * 2 ^ s ≤ 2 ^ (w - 8 + s) := by
    have hb := @partOf_bounds bit _ _ h.range_ge h.range_le hp
    rw [hpowS]
    refine Nat.mul_le_mul_right _ (Nat.le_trans (Nat.le_of_lt hb.2) ?_)
    exact Nat.le_trans (by decide : 256 ≤ 2 ^ 8) (Nat.pow_le_pow_right (by decide) (by omega))
  have hwin : 8 + (c.shifts + s) - 8 * (e.baseStream.buffer ++ [low / 2 ^ (w - 8)]).length = w - 8 + s := by
    rw [length_append, length_singleton]
    unfold window at hwdef
    omega
  have htracks : Tracks ⟨⟨e.baseStream.buffer ++ [low / 2 ^ (w - 8)], e.baseStream.buffer.length + 1⟩,
      low % 2 ^ (w - 8) * 2 ^ s, part * 2 ^ s, e.count + s - 8⟩ (codeSymbol c (bit, p)) := by
    rw [codeSymbol_eq]
    refine ⟨?_, rfl, hge, hle, ?_, ?_, ?_, ?_, ?_⟩
    · show e.baseStream.buffer.length + 1 = (e.baseStream.buffer ++ [_]).length
      rw [length_append, length_singleton]
    · show (e.baseStream.buffer ++ [_]).length = completeBytes (c.shifts + s)
      have hl := h.length_eq
      rw [length_append, length_singleton]
      unfold completeBytes at hl ⊢
      unfold window at hwdef
      omega
    · show e.count + (s : Int) - 8 = ((8 + (c.shifts + s) - 8 * _ : Nat) : Int) - 32
      rw [hwin, hcount]
      omega
    · show (c.low + _) * 2 ^ s = bigEndian 256 (e.baseStream.buffer ++ [_]) * 2 ^ (8 + (c.shifts + s) - 8 * _) +
        low % 2 ^ (w - 8) * 2 ^ s
      rw [hwin, hcode, bigEndian_concat, hpowS, hpow]
      nth_rewrite 1 [← hdiv]
      ring
    · show low % 2 ^ (w - 8) * 2 ^ s + part * 2 ^ s ≤ 2 * 2 ^ (8 + (c.shifts + s) - 8 * _)
      rw [hwin]
      omega
    · intro byte hmem
      rcases mem_append.mp hmem with hmem | hmem
      · exact h.byte_lt byte hmem
      · rw [mem_singleton.mp hmem]
        exact hbyte
  refine ⟨_, low / 2 ^ (w - 8), ?_, rfl, htracks, ?_⟩
  · have hcarry := (carry_iff hw31 (Nat.lt_of_lt_of_le hlow (by omega))).not.mpr (Nat.not_le_of_lt hlow)
    have hoffset : ((s : Int) - (e.count + s)).toNat = 32 - w := by omega
    have hcount' : (e.count + (s : Int)).toNat = w + s - 32 := by omega
    simp only [VpxRangeEncoder.write, hmod, hpart]
    rw [show normShift part = s from rfl, if_pos (by show 0 ≤ e.count + (s : Int); omega), hoffset, hcount',
      if_neg hcarry]
    simp only [writeByte_end h.position_eq]
    rw [show 24 - (32 - w) = w - 8 from by omega, masked_eq hw8 (by omega), hleft, Nat.mod_eq_of_lt hfits,
      Nat.mod_eq_of_lt hbyte]
  · unfold Clean
    rw [htracks.firstBytes_eq]
    refine Nat.add_eq_left.mpr (Nat.div_eq_of_lt ?_)
    have hwin' : window ⟨⟨e.baseStream.buffer ++ [low / 2 ^ (w - 8)], e.baseStream.buffer.length + 1⟩,
        low % 2 ^ (w - 8) * 2 ^ s, part * 2 ^ s, e.count + s - 8⟩ (codeSymbol c (bit, p)) = w - 8 + s := by
      rw [codeSymbol_eq]
      exact hwin
    rw [hwin']
    exact hleft_lt

/-- **A `Write` that would have to carry** throws. -/
theorem Tracks.write_carry (h : Tracks e c) (hp : p ≤ 255) (hw : 32 ≤ window e c + shiftOf c bit p)
    (hlow : 2 ^ window e c ≤ lowAfter e bit p) : e.write bit p = none := by
  obtain ⟨hlow', hmod, hpart, hcode⟩ := @Tracks.narrowed _ _ bit _ h hp
  have hb := @partOf_bounds bit _ _ h.range_ge h.range_le hp
  have hcount := h.count_eq
  have hcarry := (@carry_iff (lowAfter e bit p) _ h.window_bounds.2 (by omega)).mpr hlow
  have hoffset : ((shiftOf c bit p : Int) - (e.count + shiftOf c bit p)).toNat = 32 - window e c := by omega
  simp only [VpxRangeEncoder.write, hmod, hpart]
  rw [show normShift (partOf c.range p bit) = shiftOf c bit p from rfl,
    if_pos (by show 0 ≤ e.count + (shiftOf c bit p : Int); omega), hoffset, if_pos hcarry,
    propagateCarry_eq_none h.position_eq]

end Yuzu.VideoCore.Vpx
