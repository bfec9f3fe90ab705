/-
  File:      Yuzu/VideoCore/H264BitWriter.lean
  Subject:   The elements that H264BitWriter (codecs/h264.cpp) writes, and the syntax of the H.264
             specification that reads them: Exp-Golomb codes and scaling lists.
-/
import Mathlib.Data.List.Chain
import Mathlib.Data.Nat.Size
import Yuzu.VideoCore.BitStreamWriter

namespace Yuzu.VideoCore.H264BitWriter

open BitStreamWriter List Option

/-! ## 1. The writer -/

def zigZagDirect : List Nat :=
  [0, 1, 8, 16, 9, 2, 3, 10, 17, 24, 32, 25, 18, 11, 4, 5, 12, 19, 26, 33, 40, 48, 41, 34, 27, 20, 13, 6, 7,
    14, 21, 28, 35, 42, 49, 56, 57, 50, 43, 36, 29, 22, 15, 23, 30, 37, 44, 51, 58, 59, 52, 45, 38, 31, 39,
    46, 53, 60, 61, 54, 47, 55, 62, 63]

def zigZagScan : List Nat := [0, 1, 4, 8, 5, 2, 3, 6, 9, 12, 13, 10, 7, 11, 14, 15]

/-- `WriteU`. -/
def writeU (value : Int) (valueSize : Nat) (w : BitStreamWriter) : BitStreamWriter :=
  w.writeBits (value % 2 ^ 32).toNat valueSize

/-- `WriteUe`: the zeros, the one and the rest of the code; `size` is `32 - countl_zero(value + 1)`. -/
def writeUe (value : Nat) (w : BitStreamWriter) : BitStreamWriter :=
  let size := Nat.size ((value + 1) % 2 ^ 32)
  (w.writeBits 1 size).writeBits (value - (2 ^ (size - 1) - 1)) (size - 1)

/-- `WriteSe`. -/
def writeSe (value : Int) (w : BitStreamWriter) : BitStreamWriter :=
  let sign := if value ≤ 0 then 0 else 1
  let value := if value < 0 then -value else value
  writeUe ((value * 2 - sign) % 2 ^ 32).toNat w

/-- The scales in the order in which they are written. -/
def scanned (list : List Nat) (start count : Nat) : List Nat :=
  ((if count = 16 then zigZagScan else zigZagDirect).take count).map fun i => list.getD (start + i) 0

/-- The `delta_scale` of each scale, from the last one on. -/
def deltaScales (lastScale : Nat) : List Nat → List Int
  | [] => []
  | value :: values => (value - lastScale : Int) :: deltaScales value values

/-- `WriteScalingList`. -/
def writeScalingList (list : List Nat) (start count : Nat) (w : BitStreamWriter) : BitStreamWriter :=
  (deltaScales 8 (scanned list start count)).foldl (fun w deltaScale => writeSe deltaScale w) w

/-- One call of the writer. -/
inductive Element where
  | bit (state : Bool)
  | u (value : Int) (size : Nat)
  | ue (value : Nat)
  | se (value : Int)
  | scalingList (list : List Nat) (start count : Nat)

def Element.write (w : BitStreamWriter) : Element → BitStreamWriter
  | .bit state => w.writeBit state
  | .u value size => writeU value size w
  | .ue value => writeUe value w
  | .se value => writeSe value w
  | .scalingList list start count => writeScalingList list start count w

/-- The values that can be given to a call. -/
def Element.Fits : Element → Prop
  | .bit _ => True
  | .u value size => size ≤ 31 ∧ 0 ≤ value ∧ value.toNat < 2 ^ size
  | .ue value => value < 2 ^ 32 - 1
  | .se value => value.natAbs < 2 ^ 30
  | .scalingList list start count =>
    (count = 16 ∨ count = 64) ∧ start + count ≤ list.length ∧ ∀ v ∈ scanned list start count,
      1 ≤ v ∧ v ≤ 255

/-- The byte array after the elements and `End`. -/
def writeAll (l : List Element) : List Bool :=
  ((l.foldl Element.write empty).writeBit true).flush.byteBits

/-! ## 2. The syntax of the specification -/

/-- The descriptors `u(1)`, `u(n)`, `ue(v)` and `se(v)`, and `scaling_list`. -/
inductive Descriptor where
  | u1
  | u (n : Nat)
  | ue
  | se
  | scalingList (sizeOfScalingList : Nat)

/-- What a descriptor reads. -/
inductive Value where
  | flag (b : Bool)
  | unsigned (v : Nat)
  | signed (v : Int)
  | scales (l : List Nat)
  deriving DecidableEq

/-- The zeros in front of the next one, which is read too. -/
def leadingZeroBits : List Bool → Option (Nat × List Bool)
  | [] => none
  | true :: bits => some (0, bits)
  | false :: bits => do
    let (n, bits) ← leadingZeroBits bits
    return (n + 1, bits)

/-- `ue(v)`. -/
def readUe (bits : List Bool) : Option (Nat × List Bool) := do
  let (n, bits) ← leadingZeroBits bits
  let (v, bits) ← readMsb n bits
  return (2 ^ n - 1 + v, bits)

/-- `se(v)`: the code number, mapped to the values of both signs. -/
def readSe (bits : List Bool) : Option (Int × List Bool) := do
  let (k, bits) ← readUe bits
  return (if k % 2 = 1 then ((k + 1) / 2 : Nat) else -((k / 2 : Nat) : Int), bits)

/-- `scaling_list`, from `lastScale` and `nextScale` on. -/
def readScalingList : Nat → Int → Int → List Bool → Option (List Nat × List Bool)
  | 0, _, _, bits => some ([], bits)
  | n + 1, lastScale, nextScale, bits => do
    let (nextScale, bits) ← if nextScale ≠ 0 then
        (readSe bits).map fun r => ((lastScale + r.1 + 256) % 256, r.2)
      else some (nextScale, bits)
    let scale := if nextScale = 0 then lastScale else nextScale
    let (l, bits) ← readScalingList n scale nextScale bits
    return (scale.toNat :: l, bits)

def Descriptor.read : Descriptor → List Bool → Option (Value × List Bool)
  | .u1, bits => (readMsb 1 bits).map fun r => (.flag (r.1 == 1), r.2)
  | .u n, bits => (readMsb n bits).map fun r => (.unsigned r.1, r.2)
  | .ue, bits => (readUe bits).map fun r => (.unsigned r.1, r.2)
  | .se, bits => (readSe bits).map fun r => (.signed r.1, r.2)
  | .scalingList n, bits => (readScalingList n 8 8 bits).map fun r => (.scales r.1, r.2)

def Element.descriptor : Element → Descriptor
  | .bit _ => .u1
  | .u _ size => .u size
  | .ue _ => .ue
  | .se _ => .se
  | .scalingList _ _ count => .scalingList count

/-- The value of a call; that of a scaling list is in zig-zag order. -/
def Element.value : Element → Value
  | .bit state => .flag state
  | .u value _ => .unsigned value.toNat
  | .ue value => .unsigned value
  | .se value => .signed value
  | .scalingList list start count => .scales (scanned list start count)

/-- Every `delta_scale` that is written is one that the specification allows. -/
def Element.DeltasAllowed : Element → Prop
  | .scalingList list start count => ∀ d ∈ deltaScales 8 (scanned list start count), -128 ≤ d ∧ d ≤ 127
  | _ => True

/-- No scale is more than 127 above or 128 below the one before it, the first one after 8. -/
def Element.SmallSteps : Element → Prop
  | .scalingList list start count =>
    List.IsChain (fun a b => b ≤ a + 127 ∧ a ≤ b + 128) (8 :: scanned list start count)
  | _ => True

/-- **The elements read back** in the same order, only a stop bit and the zeros of the last byte are behind
them, and every `delta_scale` is allowed. -/
def ReadsBack (l : List Element) : Prop :=
  (∃ k < 8, readAll Descriptor.read (l.map Element.descriptor) (writeAll l) =
    some (l.map Element.value, true :: List.replicate k false)) ∧ ∀ e ∈ l, e.DeltasAllowed

/-! ## 3. What is written -/

/-- The bits of `WriteUe`. -/
def ueBits (value : Nat) : List Bool :=
  msbBits 1 (Nat.size (value + 1)) ++
    msbBits (value - (2 ^ (Nat.size (value + 1) - 1) - 1)) (Nat.size (value + 1) - 1)

/-- The code number of `WriteSe`. -/
def codeNum (value : Int) : Nat := value.natAbs * 2 - if value ≤ 0 then 0 else 1

def Element.bits : Element → List Bool
  | .bit state => [state]
  | .u value size => msbBits (value % 2 ^ 32).toNat size
  | .ue value => ueBits value
  | .se value => ueBits (codeNum value)
  | .scalingList list start count => (deltaScales 8 (scanned list start count)).flatMap
    (ueBits <| codeNum ·)

variable {w : BitStreamWriter} {e : Element} {l : List Element} {rest : List Bool} {n : Nat} {v : Int}

theorem bits_writeUe (h : n < 2 ^ 32 - 1) : (writeUe n w).bits = w.bits ++ ueBits n := by
  have hmod : (n + 1) % 2 ^ 32 = n + 1 := Nat.mod_eq_of_lt (by omega)
  rw [writeUe, hmod]
  rw [bits_writeBits, bits_writeBits, append_assoc]
  rfl

theorem bits_writeSe (h : v.natAbs < 2 ^ 30) : (writeSe v w).bits = w.bits ++ ueBits (codeNum v) := by
  have hcode : (((if v < 0 then -v else v) * 2 - if v ≤ 0 then 0 else 1) % 2 ^ 32).toNat = codeNum v := by
    unfold codeNum
    split <;> split <;> omega
  have hlt : codeNum v < 2 ^ 32 - 1 := by
    unfold codeNum
    omega
  rw [writeSe]
  simp only [hcode]
  exact bits_writeUe hlt

theorem natAbs_deltaScales {last : Nat} {values : List Nat} (hlast : last ≤ 255) (h : ∀ v ∈ values, v ≤ 255)
    {d : Int} (hd : d ∈ deltaScales last values) : d.natAbs ≤ 255 := by
  induction values generalizing last with
  | nil => cases hd
  | cons value values ih =>
    have hvalue := h value mem_cons_self
    rcases mem_cons.mp hd with rfl | hd
    · omega
    · exact ih hvalue (fun v hv => h v (mem_cons_of_mem _ hv)) hd

theorem bits_write (hfits : e.Fits) : (e.write w).bits = w.bits ++ e.bits := by
  cases e with
  | bit state => exact bits_writeBit
  | u value size => exact bits_writeBits
  | ue value => exact bits_writeUe hfits
  | se value => exact bits_writeSe hfits
  | scalingList list start count =>
    have hall : ∀ (ds : List Int) (w : BitStreamWriter), (∀ d ∈ ds, d.natAbs ≤ 255) →
        (ds.foldl (fun w deltaScale => writeSe deltaScale w) w).bits =
          w.bits ++ ds.flatMap (ueBits <| codeNum ·) := by
      intro ds
      induction ds with
      | nil => simp
      | cons d ds ih =>
        intro w hds
        have hd := hds d mem_cons_self
        rw [foldl_cons, ih _ fun d hd => hds d (mem_cons_of_mem _ hd), bits_writeSe (by omega),
          flatMap_cons, append_assoc]
    exact hall _ w fun d hd => natAbs_deltaScales (by omega) (fun v hv => (hfits.2.2 v hv).2) hd

/-- The bits of all calls, the stop bit, and the zeros of the last byte. -/
theorem writeAll_eq (hfits : ∀ e ∈ l, e.Fits) :
    ∃ k < 8, writeAll l = l.flatMap Element.bits ++ true :: List.replicate k false := by
  have hall : ∀ w : BitStreamWriter, (l.foldl Element.write w).bits = w.bits ++ l.flatMap Element.bits := by
    induction l with
    | nil => simp
    | cons e l ih =>
      intro w
      rw [foldl_cons, ih fun e he => hfits e (mem_cons_of_mem _ he),
        bits_write (hfits e mem_cons_self), flatMap_cons, append_assoc]
  obtain ⟨k, hk, hbits⟩ := byteBits_flush (w := (l.foldl Element.write empty).writeBit true)
  refine ⟨k, hk, ?_⟩
  rw [writeAll, hbits, bits_writeBit, hall, append_assoc]
  rfl

/-! ## 4. What is read -/

/-- **An Exp-Golomb code reads back.** -/
theorem readUe_ueBits : readUe (ueBits n ++ rest) = some (n, rest) := by
  obtain ⟨m, hm⟩ : ∃ m, Nat.size (n + 1) = m + 1 :=
    ⟨Nat.size (n + 1) - 1, by
      have : 0 < Nat.size (n + 1) := Nat.size_pos.mpr n.succ_pos
      omega⟩
  have hlow : 2 ^ m ≤ n + 1 := Nat.lt_size.mp (by omega)
  have hhigh : n + 1 < 2 ^ (m + 1) := hm ▸ Nat.lt_size_self (n + 1)
  have hzeros : ∀ m rest, leadingZeroBits (msbBits 1 (m + 1) ++ rest) = some (m, rest) := by
    intro m rest
    induction m with
    | zero => rfl
    | succ m ih =>
      rw [msbBits, Nat.testBit_lt_two_pow (Nat.one_lt_two_pow (by omega)), List.cons_append,
        leadingZeroBits, ih]
      rfl
  rw [Nat.pow_succ] at hhigh
  rw [readUe, ueBits, hm, List.append_assoc, hzeros, Nat.add_sub_cancel]
  simp only [Option.bind_eq_bind, Option.bind_some, readMsb_of_lt (show n - (2 ^ m - 1) < 2 ^ m by omega),
    Option.pure_def]
  rw [show 2 ^ m - 1 + (n - (2 ^ m - 1)) = n by omega]

theorem readSe_ueBits : readSe (ueBits (codeNum v) ++ rest) = some (v, rest) := by
  have hvalue : (if codeNum v % 2 = 1 then (((codeNum v + 1) / 2 : Nat) : Int)
      else -((codeNum v / 2 : Nat) : Int)) = v := by
    unfold codeNum
    split <;> split at * <;> omega
  simp only [readSe, readUe_ueBits, Option.bind_eq_bind, Option.bind_some, Option.pure_def, hvalue]

/-- **The scales read back**, whatever their differences are. -/
theorem readScalingList_deltaScales {values : List Nat} {last : Nat} (hlast : 1 ≤ last ∧ last ≤ 255)
    (h : ∀ v ∈ values, 1 ≤ v ∧ v ≤ 255) :
    readScalingList values.length last last
      ((deltaScales last values).flatMap (ueBits <| codeNum ·) ++ rest) = some (values, rest) := by
  induction values generalizing last with
  | nil => rfl
  | cons value values ih =>
    have hvalue := h value mem_cons_self
    have hnext : ((last : Int) + (value - last) + 256) % 256 = value := by omega
    rw [length_cons, deltaScales, flatMap_cons, append_assoc, readScalingList, if_pos (by omega)]
    simp only [readSe_ueBits, Option.map_some, Option.bind_eq_bind, Option.bind_some, Option.pure_def,
      hnext]
    rw [if_neg (show (value : Int) ≠ 0 by omega), ih hvalue fun v hv => h v (mem_cons_of_mem _ hv)]
    rfl

/-- **One element reads back.** -/
theorem read_bits (hfits : e.Fits) : e.descriptor.read (e.bits ++ rest) = some (e.value, rest) := by
  cases e with
  | bit state => cases state <;> rfl
  | u value size =>
    have hpow := Nat.pow_le_pow_right (show 0 < 2 by omega) hfits.1
    have hmod : (value % 2 ^ 32).toNat = value.toNat := by
      have := hfits.2
      omega
    simp only [Element.descriptor, Descriptor.read, Element.bits, hmod, readMsb_of_lt hfits.2.2, map_some]
    rfl
  | ue value =>
    simp only [Element.descriptor, Descriptor.read, Element.bits, readUe_ueBits, map_some]
    rfl
  | se value =>
    simp only [Element.descriptor, Descriptor.read, Element.bits, readSe_ueBits, map_some]
    rfl
  | scalingList list start count =>
    have hcount : (scanned list start count).length = count := by
      rcases hfits.1 with rfl | rfl <;> rfl
    have hread : readScalingList (scanned list start count).length (8 : Nat) (8 : Nat)
        ((deltaScales 8 (scanned list start count)).flatMap (ueBits <| codeNum ·) ++ rest) =
          some (scanned list start count, rest) := readScalingList_deltaScales (by decide) hfits.2.2
    rw [hcount] at hread
    exact congrArg (Option.map _) hread

/-- **The header reads back, with deltas that are allowed**, exactly where the scales have small steps. -/
theorem readsBack_iff (l : List Element) (hfits : ∀ e ∈ l, e.Fits) :
    ReadsBack l ↔ ∀ e ∈ l, e.SmallSteps := by
  have hchain : ∀ (values : List Nat) (last : Nat),
      (∀ d ∈ deltaScales last values, (-128 : Int) ≤ d ∧ d ≤ 127) ↔
        List.IsChain (fun a b => b ≤ a + 127 ∧ a ≤ b + 128) (last :: values) := by
    intro values
    induction values with
    | nil => simp [deltaScales]
    | cons value values ih =>
      intro last
      rw [deltaScales, forall_mem_cons, ih, isChain_cons_cons]
      exact and_congr_left' (by omega)
  have hsteps : ∀ e : Element, e.DeltasAllowed ↔ e.SmallSteps := by
    intro e
    cases e with
    | scalingList list start count => exact hchain _ 8
    | bit | u | ue | se => exact Iff.rfl
  obtain ⟨k, hk, hbits⟩ := writeAll_eq hfits
  refine ⟨fun h e he => (hsteps e).mp (h.2 e he),
    fun h => ⟨⟨k, hk, ?_⟩, fun e he => (hsteps e).mpr (h e he)⟩⟩
  rw [hbits]
  exact readAll_encode fun e he rest => read_bits (hfits e he)

theorem readsBack_flat : ReadsBack [.scalingList (List.replicate 16 16) 0 16] :=
  (readsBack_iff _ (forall_mem_singleton.mpr (by unfold Element.Fits; decide))).mpr
    (forall_mem_singleton.mpr (by unfold Element.SmallSteps; decide))

/-- A first scale of 255 is written as a delta of 247. -/
theorem not_readsBack_steep : ¬∀ l : List Element, (∀ e ∈ l, e.Fits) → ReadsBack l := by
  intro h
  have hback := h [.scalingList (List.replicate 16 255) 0 16]
    (forall_mem_singleton.mpr (by unfold Element.Fits; decide))
  have hdelta := hback.2 _ mem_cons_self 247 (by decide)
  omega

end Yuzu.VideoCore.H264BitWriter
