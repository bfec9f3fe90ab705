/-
  File:      Yuzu/VideoCore/BitStreamWriter.lean
  Subject:   The bit writers of the host1x codecs: VpxBitStreamWriter (codecs/vp9.cpp), and the buffer that
             it has in common with H264BitWriter (codecs/h264.cpp).

  A value is given by its 32 bits: where H264BitWriter shifts a signed value, the mask takes away the
  bits in which that differs.
-/
import Yuzu.Lib.BitStream

namespace Yuzu.VideoCore

open List

/-! ## 1. The buffer -/

/-- The members of both writers; `buffer_size` is 8. The bits behind `buffer_pos` are zero. -/
structure BitStreamWriter where
  buffer : Nat
  bufferPos : Nat
  byteArray : List Nat
  pos_le : bufferPos ≤ 8
  low : ∀ i < 8 - bufferPos, buffer.testBit i = false

namespace BitStreamWriter

def empty : BitStreamWriter := ⟨0, 0, [], Nat.zero_le 8, fun i _ => Nat.zero_testBit i⟩

/-- `Flush`. -/
def flush (w : BitStreamWriter) : BitStreamWriter :=
  if w.bufferPos = 0 then w
  else ⟨0, 0, w.byteArray ++ [w.buffer % 256], Nat.zero_le 8, fun i _ => Nat.zero_testBit i⟩

/-- The flush of `GetFreeBufferBits`. -/
def makeFree (w : BitStreamWriter) : BitStreamWriter := if w.bufferPos = 8 then w.flush else w

/-- The chunk of `copy_size` bits goes behind those in the buffer. -/
def put (w : BitStreamWriter) (chunk copySize : Nat) (h : copySize ≤ 8 - w.bufferPos) :
    BitStreamWriter where
  buffer := w.buffer ||| chunk <<< (8 - w.bufferPos - copySize)
  bufferPos := w.bufferPos + copySize
  byteArray := w.byteArray
  pos_le := by
    have := w.pos_le
    omega
  low i hi := by
    rw [Nat.testBit_or, Nat.testBit_shiftLeft, w.low i (by omega)]
    simp only [ge_iff_le, Bool.false_or, Bool.and_eq_false_iff, decide_eq_false_iff_not]
    exact .inl (by omega)

theorem makeFree_lt (w : BitStreamWriter) : w.makeFree.bufferPos < 8 := by
  have := w.pos_le
  unfold makeFree flush
  split
  · split
    · omega
    · exact Nat.zero_lt_succ 7
  · omega

/-- The loop of `WriteBits`, with so many bits of the value remaining. -/
def writeLoop (value remaining : Nat) (w : BitStreamWriter) : BitStreamWriter :=
  if remaining = 0 then w
  else
    let copySize := min remaining (8 - w.makeFree.bufferPos)
    writeLoop value (remaining - copySize)
      (w.makeFree.put ((value >>> (remaining - copySize)) &&& (2 ^ copySize - 1)) copySize
        (Nat.min_le_right ..))
termination_by remaining
decreasing_by
  have := w.makeFree_lt
  omega

/-- `WriteBits`. -/
def writeBits (value bitCount : Nat) (w : BitStreamWriter) : BitStreamWriter := writeLoop value bitCount w

/-- `WriteBit`. -/
def writeBit (state : Bool) (w : BitStreamWriter) :
    BitStreamWriter := w.writeBits (if state then 1 else 0) 1

/-- The bits of the bytes, the highest first. -/
def byteBits (w : BitStreamWriter) : List Bool := w.byteArray.flatMap (msbBits · 8)

/-- The bits written so far. -/
def bits (w : BitStreamWriter) : List Bool :=
  w.byteBits ++ msbBits (w.buffer >>> (8 - w.bufferPos)) w.bufferPos

variable {w : BitStreamWriter} {value n : Nat}

theorem bits_put {chunk copySize : Nat} {h : copySize ≤ 8 - w.bufferPos} (hc : chunk < 2 ^ copySize) :
    (w.put chunk copySize h).bits = w.bits ++ msbBits chunk copySize := by
  have hpos := w.pos_le
  have hbit : ∀ i, (w.put chunk copySize h).buffer.testBit i =
      (w.buffer.testBit i || decide (8 - w.bufferPos - copySize ≤ i) &&
        chunk.testBit (i - (8 - w.bufferPos - copySize))) := by
    intro i
    rw [put, Nat.testBit_or, Nat.testBit_shiftLeft]
  have hfront : msbBits ((w.put chunk copySize h).buffer >>> (8 - (w.bufferPos + copySize)) >>> copySize)
      w.bufferPos = msbBits (w.buffer >>> (8 - w.bufferPos)) w.bufferPos := by
    refine msbBits_congr fun i _ => ?_
    have hhigh : chunk.testBit (copySize + i) = false :=
      Nat.testBit_lt_two_pow (Nat.lt_of_lt_of_le hc (Nat.pow_le_pow_right (by omega) (by omega)))
    rw [Nat.testBit_shiftRight, Nat.testBit_shiftRight, Nat.testBit_shiftRight, hbit,
      show 8 - (w.bufferPos + copySize) + (copySize + i) - (8 - w.bufferPos - copySize) = copySize + i by
        omega,
      hhigh, Bool.and_false, Bool.or_false,
      show 8 - (w.bufferPos + copySize) + (copySize + i) = 8 - w.bufferPos + i by omega]
  have hback : msbBits ((w.put chunk copySize h).buffer >>> (8 - (w.bufferPos + copySize))) copySize =
      msbBits chunk copySize := by
    refine msbBits_congr fun i hi => ?_
    rw [Nat.testBit_shiftRight, hbit, w.low _ (by omega), Bool.false_or, decide_eq_true (by omega),
      Bool.true_and]
    exact congrArg chunk.testBit (by omega)
  change w.byteBits ++ msbBits ((w.put chunk copySize h).buffer >>> (8 - (w.bufferPos + copySize)))
    (w.bufferPos + copySize) = _
  rw [msbBits_add, hfront, hback, bits, append_assoc]

/-- **A flush** fills the last byte up with zeros. -/
theorem byteBits_flush : ∃ k < 8, w.flush.byteBits = w.bits ++ List.replicate k false := by
  by_cases h : w.bufferPos = 0
  · refine ⟨0, by omega, ?_⟩
    rw [flush, if_pos h, bits, h, msbBits, replicate_zero, append_nil, append_nil]
  · have hpos := w.pos_le
    refine ⟨8 - w.bufferPos, by omega, ?_⟩
    have hbyte : msbBits (w.buffer % 256) 8 = msbBits w.buffer (w.bufferPos + (8 - w.bufferPos)) := by
      rw [show w.bufferPos + (8 - w.bufferPos) = 8 by omega]
      refine msbBits_congr fun i hi => ?_
      rw [show 256 = 2 ^ 8 from rfl, Nat.testBit_mod_two_pow, decide_eq_true hi, Bool.true_and]
    rw [flush, if_neg h, byteBits, flatMap_append, flatMap_singleton, hbyte, msbBits_add,
      msbBits_zero w.low, bits, append_assoc]
    rfl

theorem bits_makeFree : w.makeFree.bits = w.bits := by
  by_cases h : w.bufferPos = 8
  · have hbyte : msbBits (w.buffer % 256) 8 = msbBits w.buffer 8 := by
      refine msbBits_congr fun i hi => ?_
      rw [show 256 = 2 ^ 8 from rfl, Nat.testBit_mod_two_pow, decide_eq_true hi, Bool.true_and]
    rw [makeFree, if_pos h, flush, if_neg (by omega), bits, bits, byteBits, flatMap_append,
      flatMap_singleton, hbyte, h, msbBits, append_nil]
    rfl
  · rw [makeFree, if_neg h]

/-- **The bits of a value** go behind those written before. -/
theorem bits_writeBits : (w.writeBits value n).bits = w.bits ++ msbBits value n := by
  unfold writeBits
  induction n using Nat.strong_induction_on generalizing w with
  | _ n ih =>
    rw [writeLoop]
    split
    · rename_i h
      rw [h, msbBits, append_nil]
    · have hfree := w.makeFree_lt
      have hchunk :
          ∀ c, msbBits ((value >>> (n - c)) &&& (2 ^ c - 1)) c = msbBits (value >>> (n - c)) c := by
        refine fun c => msbBits_congr fun i hi => ?_
        rw [Nat.testBit_and, Nat.testBit_two_pow_sub_one, decide_eq_true hi, Bool.and_true]
      have hlt : ∀ c, (value >>> (n - c)) &&& (2 ^ c - 1) < 2 ^ c := by
        intro c
        exact Nat.and_lt_two_pow _ (Nat.sub_lt (Nat.two_pow_pos c) Nat.one_pos)
      dsimp only
      rw [ih _ (by omega), bits_put (hlt _), bits_makeFree, hchunk, append_assoc, ← msbBits_add,
        Nat.add_sub_cancel' (Nat.min_le_left ..)]

theorem bits_writeBit {b : Bool} : (w.writeBit b).bits = w.bits ++ [b] := by
  rw [writeBit, bits_writeBits]
  cases b <;> rfl

end BitStreamWriter

end Yuzu.VideoCore
