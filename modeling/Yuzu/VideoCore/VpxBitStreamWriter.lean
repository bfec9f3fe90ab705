/-
  File:      Yuzu/VideoCore/VpxBitStreamWriter.lean
  Subject:   The elements that VpxBitStreamWriter (codecs/vp9.cpp) writes, and the syntax of the VP9
             specification that reads them.
-/
import Mathlib.Tactic.IntervalCases
import Yuzu.VideoCore.BitStreamWriter

namespace Yuzu.VideoCore.VpxBitStreamWriter

open BitStreamWriter List

/-! ## 1. The writer -/

/-- `WriteU`. -/
def writeU (value valueSize : Nat) (w : BitStreamWriter) : BitStreamWriter := w.writeBits value valueSize

/-- `WriteS`. -/
def writeS (value : Int) (valueSize : Nat) (w : BitStreamWriter) : BitStreamWriter :=
  let sign := value < 0
  let value := if sign then -value else value
  w.writeBits ((value * 2 % 2 ^ 32).toNat ||| if sign then 1 else 0) (valueSize + 1)

/-- `WriteDeltaQ`, of a delta that is converted to 32 bits; no sign is written. -/
def writeDeltaQ (value : Nat) (w : BitStreamWriter) : BitStreamWriter :=
  let deltaCoded := value ≠ 0
  let w := w.writeBit deltaCoded
  if deltaCoded then w.writeBits value 4 else w

/-- One call of the writer. -/
inductive Element where
  | bit (state : Bool)
  | u (value size : Nat)
  | s (value : Int) (size : Nat)
  | deltaQ (delta : Int)
  deriving DecidableEq

/-- The values that the syntax can carry. -/
def Element.Fits : Element → Prop
  | .bit _ => True
  | .u value size => 1 ≤ size ∧ size ≤ 31 ∧ value < 2 ^ size
  | .s value size => size ≤ 31 ∧ value.natAbs < 2 ^ size
  | .deltaQ delta => -15 ≤ delta ∧ delta ≤ 15

def Element.write (w : BitStreamWriter) : Element → BitStreamWriter
  | .bit state => w.writeBit state
  | .u value size => writeU value size w
  | .s value size => writeS value size w
  | .deltaQ delta => writeDeltaQ (delta % 2 ^ 32).toNat w

/-- The byte array after the elements and `Flush`. -/
def writeAll (l : List Element) : List Bool := (l.foldl Element.write empty).flush.byteBits

/-! ## 2. The syntax of the specification -/

/-- The descriptors `f(1)`, `f(n)`, `su(n)`, and `read_delta_q`. -/
inductive Descriptor where
  | f1
  | f (n : Nat)
  | su (n : Nat)
  | readDeltaQ

def Element.descriptor : Element → Descriptor
  | .bit _ => .f1
  | .u _ size => .f size
  | .s _ size => .su size
  | .deltaQ _ => .readDeltaQ

/-- `su(n)`: the value, and the sign behind it. -/
def readSu (n : Nat) (bits : List Bool) : Option (Int × List Bool) := do
  let (value, bits) ← readMsb n bits
  let (sign, bits) ← readMsb 1 bits
  return (if sign = 1 then -(value : Int) else value, bits)

def Descriptor.read : Descriptor → List Bool → Option (Element × List Bool)
  | .f1, bits => do
    let (v, bits) ← readMsb 1 bits
    return (.bit (v == 1), bits)
  | .f n, bits => do
    let (v, bits) ← readMsb n bits
    return (.u v n, bits)
  | .su n, bits => do
    let (v, bits) ← readSu n bits
    return (.s v n, bits)
  | .readDeltaQ, bits => do
    let (deltaCoded, bits) ← readMsb 1 bits
    if deltaCoded = 1 then
      let (v, bits) ← readSu 4 bits
      return (.deltaQ v, bits)
    else return (.deltaQ 0, bits)

/-- **The fields read back** in the same order, and only the zeros of the last byte are behind them. -/
def ReadsBack (l : List Element) : Prop :=
  ∃ k < 8, readAll Descriptor.read (l.map Element.descriptor) (writeAll l) = some
    (l, List.replicate k false)

/-! ## 3. What is written -/

/-- The bits of one call. -/
def Element.bits : Element → List Bool
  | .bit state => [state]
  | .u value size => msbBits value size
  | .s value size => msbBits ((value.natAbs * 2 % 2 ^ 32) ||| if value < 0 then 1 else 0) (size + 1)
  | .deltaQ delta =>
    if (delta % 2 ^ 32).toNat ≠ 0 then true :: msbBits (delta % 2 ^ 32).toNat 4 else [false]

variable {w : BitStreamWriter} {e : Element} {l : List Element} {rest : List Bool}

theorem bits_write : (e.write w).bits = w.bits ++ e.bits := by
  cases e with
  | bit state => exact bits_writeBit
  | u value size => exact bits_writeBits
  | s value size =>
    have habs : ((if value < 0 then -value else value) * 2 % 2 ^ 32).toNat = value.natAbs * 2 % 2 ^ 32 := by
      split <;> omega
    rw [Element.write, writeS, bits_writeBits, Element.bits]
    simp only [habs]
  | deltaQ delta =>
    rw [Element.write, writeDeltaQ, Element.bits]
    by_cases h : (delta % 2 ^ 32).toNat ≠ 0
    · simp only [if_pos h, bits_writeBits, bits_writeBit, decide_eq_true h, append_assoc, singleton_append]
    · simp only [if_neg h, bits_writeBit, decide_eq_false h]

/-- The bits of all calls, and the zeros of the last byte. -/
theorem writeAll_eq (l : List Element) :
    ∃ k < 8, writeAll l = l.flatMap Element.bits ++ List.replicate k false := by
  have hall : ∀ w : BitStreamWriter, (l.foldl Element.write w).bits = w.bits ++ l.flatMap Element.bits := by
    induction l with
    | nil => simp
    | cons e l ih =>
      intro w
      rw [foldl_cons, ih, bits_write, flatMap_cons, append_assoc]
  obtain ⟨k, hk, hbits⟩ := byteBits_flush (w := l.foldl Element.write empty)
  refine ⟨k, hk, ?_⟩
  rw [writeAll, hbits, hall]
  rfl

/-- **One element reads back**, with no delta other than zero. -/
theorem read_bits (hfits : e.Fits) (hdelta : ∀ d, e = .deltaQ d → d = 0) :
    e.descriptor.read (e.bits ++ rest) = some (e, rest) := by
  cases e with
  | bit state => cases state <;> rfl
  | u value size =>
    simp only [Element.descriptor, Descriptor.read, Element.bits, readMsb_of_lt hfits.2.2,
      Option.bind_eq_bind, Option.bind_some, Option.pure_def]
  | s value size =>
    have hlt : value.natAbs * 2 < 2 ^ 32 := by
      have := Nat.pow_le_pow_right (show 0 < 2 by omega) hfits.1
      have := hfits.2
      omega
    have hor : (value.natAbs * 2 % 2 ^ 32 ||| if value < 0 then 1 else 0) =
        value.natAbs * 2 + if value < 0 then 1 else 0 := by
      have := Nat.shiftLeft_add_eq_or_of_lt (show (if value < 0 then 1 else 0) < 2 ^ 1 by split <;> omega)
        value.natAbs
      rw [Nat.shiftLeft_eq, Nat.pow_one] at this
      rw [Nat.mod_eq_of_lt hlt, this]
    have hhigh : (value.natAbs * 2 + if value < 0 then 1 else 0) >>> 1 = value.natAbs := by
      rw [Nat.shiftRight_one]
      split <;> omega
    have hsign : (value.natAbs * 2 + if value < 0 then 1 else 0) % 2 ^ 1 = if value < 0 then 1 else 0 := by
      split <;> omega
    have hvalue :
        (if (if value < 0 then 1 else 0) = 1 then -(value.natAbs : Int) else value.natAbs) = value := by
      by_cases h : value < 0
      · rw [if_pos h, if_pos rfl]
        omega
      · rw [if_neg h, if_neg (by decide)]
        omega
    simp only [Element.descriptor, Descriptor.read, readSu, Element.bits, hor, msbBits_add, hhigh,
      List.append_assoc, readMsb_of_lt hfits.2, readMsb_msbBits, hsign, hvalue, Option.bind_eq_bind,
      Option.bind_some, Option.pure_def]
  | deltaQ delta =>
    obtain rfl := hdelta delta rfl
    rfl

/-- **The header reads back** where every quantiser delta is zero. -/
theorem readsBack_of_zero_deltas (hfits : ∀ e ∈ l, e.Fits) (hdelta : ∀ d, .deltaQ d ∈ l → d = 0) :
    ReadsBack l := by
  obtain ⟨k, hk, hbits⟩ := writeAll_eq l
  refine ⟨k, hk, ?_⟩
  have hread : readAll Descriptor.read (l.map Element.descriptor)
      (l.flatMap Element.bits ++ List.replicate k false) = some (l.map id, List.replicate k false) :=
    readAll_encode fun e he rest => read_bits (hfits e he) fun d hd => hdelta d (hd ▸ he)
  rw [hbits, hread, List.map_id]

theorem readsBack_header : ReadsBack [.u 5 3, .deltaQ 0, .s (-3) 6, .bit true] :=
  readsBack_of_zero_deltas (by simp [Element.Fits]) (by simp)

/-- A delta of 1, and the bit behind it taken for its sign. -/
theorem not_readsBack_delta : ¬∀ l : List Element, (∀ e ∈ l, e.Fits) → ReadsBack l := by
  intro h
  obtain ⟨k, -, hread⟩ := h [.deltaQ 1, .bit true] (by simp [Element.Fits])
  obtain ⟨k', hk', hbits⟩ := writeAll_eq [.deltaQ 1, .bit true]
  rw [hbits] at hread
  have hhead : (readAll Descriptor.read [.readDeltaQ, .f1]
      ([Element.deltaQ 1, .bit true].flatMap Element.bits ++ List.replicate k' false)).map
        (fun r => r.1.head?) =
      some (some (.deltaQ 1)) := congrArg (Option.map fun r => r.1.head?) hread
  interval_cases k' <;> revert hhead <;> decide

end Yuzu.VideoCore.VpxBitStreamWriter
