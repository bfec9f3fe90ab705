/-
  File:      Yuzu/VideoCore/VpxRangeEncoder.lean
  Subject:   `VpxRangeEncoder` (host1x/codecs/vp9.cpp) over `Common::Stream` (common/stream.cpp), and
             the boolean decoder of the VP9 specification.

  A read behind the end of the stream throws: the call has no result. `lowValue` is a `u32`, with its
  shifts cut to 32 bits; positions are below 2^31, so that their casts to `s32` keep them. The decoder
  reads the buffer as bits and has no result where it would need more bits than there are.
-/
import Mathlib.Data.List.InsertIdx
import Yuzu.Lib.BigEndian
import Yuzu.Lib.IntervalCode

namespace Yuzu.VideoCore.Vpx

/-! ## 1. Common::Stream -/

/-- `Common::Stream`. -/
structure Stream where
  buffer : List Nat
  position : Nat
  deriving DecidableEq, Repr

namespace Stream

/-- `Seek` with `SeekOrigin::SetOrigin`. -/
def seekSet (s : Stream) (offset : Int) : Stream :=
  if offset < 0 then { s with position := 0 }
  else if s.position ≥ s.buffer.length then { s with position := s.buffer.length }
  else { s with position := offset.toNat }

/-- `Seek` with `SeekOrigin::FromCurrentPos`. -/
def seekCurrent (s : Stream) (offset : Int) : Stream := s.seekSet (s.position + offset)

/-- `ReadByte`. -/
def readByte (s : Stream) : Option (Nat × Stream) :=
  match s.buffer[s.position]? with
  | some byte => some (byte, { s with position := s.position + 1 })
  | none => none

/-- `WriteByte`: an append at the end, and an insertion before it that leaves the position. -/
def writeByte (s : Stream) (byte : Nat) : Stream :=
  if s.position = s.buffer.length then
    { s with buffer := s.buffer ++ [byte], position := s.position + 1 }
  else { s with buffer := s.buffer.insertIdx s.position byte }

/-- `VpxRangeEncoder::PeekByte`. -/
def peekByte (s : Stream) : Option (Nat × Stream) :=
  match s.readByte with
  | some (value, s') => some (value, s'.seekCurrent (-1))
  | none => none

end Stream

/-! ## 2. VpxRangeEncoder -/

/-- `norm_lut`. -/
def normLut : List Nat :=
  [0, 7, 6, 6, 5, 5, 5, 5, 4, 4, 4, 4, 4, 4, 4, 4, 3, 3, 3, 3, 3, 3, 3, 3, 3, 3, 3, 3, 3, 3, 3, 3,
   2, 2, 2, 2, 2, 2, 2, 2, 2, 2, 2, 2, 2, 2, 2, 2, 2, 2, 2, 2, 2, 2, 2, 2, 2, 2, 2, 2, 2, 2, 2, 2,
   1, 1, 1, 1, 1, 1, 1, 1, 1, 1, 1, 1, 1, 1, 1, 1, 1, 1, 1, 1, 1, 1, 1, 1, 1, 1, 1, 1, 1, 1, 1, 1,
   1, 1, 1, 1, 1, 1, 1, 1, 1, 1, 1, 1, 1, 1, 1, 1, 1, 1, 1, 1, 1, 1, 1, 1, 1, 1, 1, 1, 1, 1, 1, 1,
   0, 0, 0, 0, 0, 0, 0, 0, 0, 0, 0, 0, 0, 0, 0, 0, 0, 0, 0, 0, 0, 0, 0, 0, 0, 0, 0, 0, 0, 0, 0, 0,
   0, 0, 0, 0, 0, 0, 0, 0, 0, 0, 0, 0, 0, 0, 0, 0, 0, 0, 0, 0, 0, 0, 0, 0, 0, 0, 0, 0, 0, 0, 0, 0,
   0, 0, 0, 0, 0, 0, 0, 0, 0, 0, 0, 0, 0, 0, 0, 0, 0, 0, 0, 0, 0, 0, 0, 0, 0, 0, 0, 0, 0, 0, 0, 0,
   0, 0, 0, 0, 0, 0, 0, 0, 0, 0, 0, 0, 0, 0, 0, 0, 0, 0, 0, 0, 0, 0, 0, 0, 0, 0, 0, 0, 0, 0, 0, 0]

/-- The shift for a range. -/
def normShift (range : Nat) : Nat := normLut.getD range 0

/-- The split of a range by a probability. -/
def splitOf (range probability : Nat) : Nat := 1 + ((range - 1) * probability) / 2 ^ 8

/-- `half_probability`. -/
def halfProbability : Nat := 128

/-- `VpxRangeEncoder`. -/
structure VpxRangeEncoder where
  baseStream : Stream
  lowValue : Nat
  range : Nat
  count : Int
  deriving DecidableEq, Repr

/-- The loop over the bytes `0xff` before the carry, for at most the given number of turns. -/
def skipFull : Nat → Stream → Option Stream
  | 0, _ => none
  | fuel + 1, s =>
    match s.peekByte with
    | none => none
    | some (value, s') => if value = 0xff then skipFull fuel ((s'.writeByte 0).seekCurrent (-2)) else some s'

/-- The carry into the bytes that are written already. -/
def propagateCarry (s : Stream) : Option Stream :=
  let currentPos := s.position
  match skipFull (s.buffer.length + 1) (s.seekCurrent (-1)) with
  | none => none
  | some s₁ =>
    match s₁.peekByte with
    | none => none
    | some (value, s₂) => some ((s₂.writeByte ((value + 1) % 256)).seekSet currentPos)

namespace VpxRangeEncoder

/-- `Write` of a bit with its probability. -/
def write (e : VpxRangeEncoder) (bit : Bool) (probability : Nat) : Option VpxRangeEncoder :=
  let split := splitOf e.range probability
  let lowValue := if bit then (e.lowValue + split) % 2 ^ 32 else e.lowValue
  let localRange := if bit then e.range - split else split
  let shift := normShift localRange
  let range := localRange * 2 ^ shift
  let count := e.count + shift
  if count ≥ 0 then
    let offset := (shift - count).toNat
    let carry := (lowValue * 2 ^ (offset - 1) % 2 ^ 32) / 2 ^ 31 ≠ 0
    match if carry then propagateCarry e.baseStream else some e.baseStream with
    | none => none
    | some stream =>
      let stream := stream.writeByte (lowValue / 2 ^ (24 - offset) % 256)
      let lowValue := lowValue * 2 ^ offset % 2 ^ 32 % 2 ^ 24
      some ⟨stream, lowValue * 2 ^ count.toNat % 2 ^ 32, range, count - 8⟩
  else
    some ⟨e.baseStream, lowValue * 2 ^ shift % 2 ^ 32, range, count⟩

/-- A symbol: a bit and its probability. -/
abbrev Symbol := Bool × Nat

/-- One `Write` after the other. -/
def writeAll (e : VpxRangeEncoder) : List Symbol → Option VpxRangeEncoder
  | [] => some e
  | (bit, probability) :: symbols =>
    match e.write bit probability with
    | none => none
    | some e' => e'.writeAll symbols

/-- The members before the constructor's body. -/
def blank : VpxRangeEncoder := ⟨⟨[], 0⟩, 0, 0xff, -24⟩

/-- What the constructor writes. -/
def marker : List Symbol := [(false, halfProbability)]

/-- What `End` writes. -/
def endSymbols : List Symbol := List.replicate 32 (false, halfProbability)

/-- The buffer after the constructor, a `Write` for each symbol, and `End`. -/
def encode (symbols : List Symbol) : Option (List Nat) :=
  match blank.writeAll (marker ++ symbols ++ endSymbols) with
  | none => none
  | some e => some e.baseStream.buffer

end VpxRangeEncoder

/-! ## 3. The boolean decoder -/

/-- The bits of a byte, the most significant one first. -/
def byteBits (byte : Nat) : List Nat := [7, 6, 5, 4, 3, 2, 1, 0].map (fun i => byte / 2 ^ i % 2)

/-- The decoder: its value and range, and the bits that are left. -/
structure BoolDecoder where
  value : Nat
  range : Nat
  bits : List Nat

namespace BoolDecoder

/-- The decoder at the start of a buffer. -/
def initBool (buffer : List Nat) : Option BoolDecoder :=
  let bits := buffer.flatMap byteBits
  if 8 ≤ bits.length then some ⟨bigEndian 2 (bits.take 8), 255, bits.drop 8⟩ else none

/-- Bits are shifted in until the range is at least 128, at most so many of them. -/
def renormalise : Nat → BoolDecoder → Option BoolDecoder
  | 0, d => some d
  | fuel + 1, d =>
    if d.range < 128 then
      match d.bits with
      | [] => none
      | bit :: bits => renormalise fuel ⟨d.value * 2 + bit, d.range * 2, bits⟩
    else some d

/-- One bit: a value below the split is a 0. -/
def readBool (d : BoolDecoder) (probability : Nat) : Option (Bool × BoolDecoder) :=
  let split := splitOf d.range probability
  let bit := decide (split ≤ d.value)
  let narrowed : BoolDecoder :=
    if bit then ⟨d.value - split, d.range - split, d.bits⟩ else ⟨d.value, split, d.bits⟩
  match renormalise 7 narrowed with
  | none => none
  | some d' => some (bit, d')

/-- One bit for each probability. -/
def readAll (d : BoolDecoder) : List Nat → Option (List Bool)
  | [] => some []
  | probability :: probabilities =>
    match d.readBool probability with
    | none => none
    | some (bit, d') =>
      match d'.readAll probabilities with
      | none => none
      | some bits => some (bit :: bits)

end BoolDecoder

/-- The bits decoded from a buffer: the marker, and one for each probability. -/
def decode (buffer : List Nat) (probabilities : List Nat) : Option (List Bool) :=
  match BoolDecoder.initBool buffer with
  | none => none
  | some d => d.readAll (halfProbability :: probabilities)

/-! ## 4. The exact code -/

/-- The interval of a coder that keeps all digits, after one more symbol. -/
def codeSymbol (c : CodeInterval) (symbol : Bool × Nat) : CodeInterval :=
  let narrowed := c.narrow (splitOf c.range symbol.2) symbol.1
  narrowed.scale (normShift narrowed.range)

/-- The interval of the marker and the symbols. -/
def codeOf (symbols : List (Bool × Nat)) : CodeInterval := symbols.foldl codeSymbol ⟨0, 255, 0⟩

/-- The number of bytes that are complete after so many digits. -/
def completeBytes (shifts : Nat) : Nat := (shifts - 16) / 8

/-- The complete bytes of the low end, after the given number of bytes. -/
def firstBytes (c : CodeInterval) (bytes : Nat) : Nat := c.leading 8 (8 * bytes)

/-- **No carry**: the bytes that are complete after a part of the symbols are those of the whole code. -/
def NoCarry (symbols : List (Bool × Nat)) : Prop :=
  ∀ i ≤ symbols.length,
    firstBytes (codeOf (symbols.take i)) (completeBytes (codeOf (symbols.take i)).shifts) =
      firstBytes (codeOf symbols) (completeBytes (codeOf (symbols.take i)).shifts)

end Yuzu.VideoCore.Vpx
