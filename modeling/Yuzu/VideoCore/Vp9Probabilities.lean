/-
  File:      Yuzu/VideoCore/Vp9Probabilities.lean
  Subject:   The probability updates of `VP9` (host1x/codecs/vp9.cpp): the bits that are handed to the
             range encoder, and the parser of the VP9 specification that reads them back.

  A written bit is a symbol, a bit with its probability. Values that the code keeps in `s32` and that
  are never negative are natural numbers. An index outside an array or outside `map_lut` has no result.
-/
import Mathlib.Data.List.Basic
import Yuzu.VideoCore.VpxRangeEncoder

namespace Yuzu.VideoCore.Vp9

open List Option

open Vpx (halfProbability)
open Vpx.VpxRangeEncoder (Symbol)

/-! ## 1. What is written -/

/-- `diff_update_probability`. -/
def diffUpdateProbability : Nat := 252

/-- `map_lut`. -/
def mapLut : List Nat :=
  [20,  21,  22,  23,  24,  25,  0,   26,  27,  28,  29,  30,  31,  32,  33,  34,  35,  36,  37,
   1,   38,  39,  40,  41,  42,  43,  44,  45,  46,  47,  48,  49,  2,   50,  51,  52,  53,  54,
   55,  56,  57,  58,  59,  60,  61,  3,   62,  63,  64,  65,  66,  67,  68,  69,  70,  71,  72,
   73,  4,   74,  75,  76,  77,  78,  79,  80,  81,  82,  83,  84,  85,  5,   86,  87,  88,  89,
   90,  91,  92,  93,  94,  95,  96,  97,  6,   98,  99,  100, 101, 102, 103, 104, 105, 106, 107,
   108, 109, 7,   110, 111, 112, 113, 114, 115, 116, 117, 118, 119, 120, 121, 8,   122, 123, 124,
   125, 126, 127, 128, 129, 130, 131, 132, 133, 9,   134, 135, 136, 137, 138, 139, 140, 141, 142,
   143, 144, 145, 10,  146, 147, 148, 149, 150, 151, 152, 153, 154, 155, 156, 157, 11,  158, 159,
   160, 161, 162, 163, 164, 165, 166, 167, 168, 169, 12,  170, 171, 172, 173, 174, 175, 176, 177,
   178, 179, 180, 181, 13,  182, 183, 184, 185, 186, 187, 188, 189, 190, 191, 192, 193, 14,  194,
   195, 196, 197, 198, 199, 200, 201, 202, 203, 204, 205, 15,  206, 207, 208, 209, 210, 211, 212,
   213, 214, 215, 216, 217, 16,  218, 219, 220, 221, 222, 223, 224, 225, 226, 227, 228, 229, 17,
   230, 231, 232, 233, 234, 235, 236, 237, 238, 239, 240, 241, 18,  242, 243, 244, 245, 246, 247,
   248, 249, 250, 251, 252, 253, 19]

/-- `RecenterNonNeg`. -/
def recenterNonNeg (newProb oldProb : Int) : Int :=
  if newProb > oldProb * 2 then newProb
  else if newProb ≥ oldProb then (newProb - oldProb) * 2
  else (oldProb - newProb) * 2 - 1

/-- `RemapProbability`. -/
def remapProbability (newProb oldProb : Nat) : Option Nat :=
  let newProb : Int := newProb - 1
  let oldProb : Int := oldProb - 1
  let index :=
    if oldProb * 2 ≤ 0xff then max 0 (recenterNonNeg newProb oldProb - 1)
    else max 0 (recenterNonNeg (0xff - 1 - newProb) (0xff - 1 - oldProb) - 1)
  mapLut[index.toNat]?

/-- `VpxRangeEncoder::Write` of the low bits of a value, the highest first. -/
def writeValue (value : Nat) : Nat → List Symbol
  | 0 => []
  | bit + 1 => ((value >>> bit) &&& 1 != 0, halfProbability) :: writeValue value bit

/-- `WriteLessThan`. -/
def writeLessThan (value test : Nat) : List Symbol := [(!decide (value < test), halfProbability)]

/-- `EncodeTermSubExp`. -/
def encodeTermSubExp (value : Nat) : List Symbol :=
  writeLessThan value 16 ++ if value < 16 then writeValue value 4
  else writeLessThan value 32 ++ if value < 32 then writeValue (value - 16) 4
  else writeLessThan value 64 ++ if value < 64 then writeValue (value - 32) 5
  else
    let value := value - 64
    let mask := 2 ^ 8 - 191
    -- `delta` is negative for the values below the mask
    if value < mask then writeValue value 7
    else
      let delta := value - mask
      writeValue (delta / 2 + mask) 7 ++ writeValue (delta &&& 1) 1

/-- `WriteProbabilityDelta`. -/
def writeProbabilityDelta (newProb oldProb : Nat) : Option (List Symbol) :=
  (remapProbability newProb oldProb).map encodeTermSubExp

/-- `WriteProbabilityUpdate` of one probability. -/
def writeProbabilityUpdate (newProb oldProb : Nat) : Option (List Symbol) :=
  if newProb = oldProb then some [(false, diffUpdateProbability)]
  else (writeProbabilityDelta newProb oldProb).map ((true, diffUpdateProbability) :: ·)

/-- `WriteProbabilityUpdate` of the probabilities at the given offsets of two arrays, in turn. -/
def writeOffsets (newProb oldProb : List Nat) : List Nat → Option (List Symbol)
  | [] => some []
  | offset :: offsets => do
    let symbols ← writeProbabilityUpdate (← newProb[offset]?) (← oldProb[offset]?)
    return symbols ++ (← writeOffsets newProb oldProb offsets)

/-- `WriteProbabilityUpdate` of two arrays. -/
def writeProbabilityUpdateArray (newProb oldProb : List Nat) : Option (List Symbol) :=
  writeOffsets newProb oldProb (List.range newProb.length)

/-- The offsets that the loop of `WriteProbabilityUpdateAligned4` comes to: three of every four. -/
def aligned4 (size : Nat) : List Nat :=
  (List.range ((size + 3) / 4)).flatMap fun group => [4 * group, 4 * group + 1, 4 * group + 2]

/-- `WriteProbabilityUpdateAligned4`. -/
def writeProbabilityUpdateAligned4 (newProb oldProb : List Nat) : Option (List Symbol) :=
  writeOffsets newProb oldProb (aligned4 newProb.length)

/-- `block_bytes`. -/
def blockBytes : Nat := 2 * 2 * 6 * 6 * 3

/-- The values of `k` and `l` in the turns of the four loops over a block. -/
def turns : List (Nat × Nat) :=
  (List.range 2).flatMap fun _ => (List.range 2).flatMap fun _ =>
    (List.range 6).flatMap fun k => (List.range 6).map fun l => (k, l)

/-- The offsets that are written in these turns, from `index` on. -/
def coefOffsets : List (Nat × Nat) → Nat → List Nat
  | [], _ => []
  | (k, l) :: rest, index =>
    (if k ≠ 0 ∨ l < 3 then [index, index + 1, index + 2] else []) ++ coefOffsets rest (index + 3)

/-- `needs_update`. -/
def needsUpdate (newProb oldProb : List Nat) (baseIndex : Nat) : Bool :=
  (newProb.drop baseIndex).take blockBytes != (oldProb.drop baseIndex).take blockBytes

/-- One block of `WriteCoefProbabilityUpdate`. -/
def writeCoefBlock (newProb oldProb : List Nat) (blockIndex : Nat) : Option (List Symbol) :=
  let update := needsUpdate newProb oldProb (blockIndex * blockBytes)
  ((update, halfProbability) :: ·) <$>
    if update then writeOffsets newProb oldProb (coefOffsets turns (blockIndex * blockBytes)) else some []

/-- The loop of `WriteCoefProbabilityUpdate` over the blocks that are left. -/
def writeCoefBlocks (txMode : Nat) (newProb oldProb : List Nat) : List Nat → Option (List Symbol)
  | [] => some []
  | blockIndex :: rest => do
    let symbols ← writeCoefBlock newProb oldProb blockIndex
    if blockIndex = txMode then return symbols
    return symbols ++ (← writeCoefBlocks txMode newProb oldProb rest)

/-- `WriteCoefProbabilityUpdate`. -/
def writeCoefProbabilityUpdate (txMode : Nat) (newProb oldProb : List Nat) : Option (List Symbol) :=
  writeCoefBlocks txMode newProb oldProb (List.range 4)

/-! ## 2. The parser of the specification -/

/-- `B(p)`: the next bit, which is to be coded with the probability `p`. -/
def readBool (p : Nat) : List Symbol → Option (Bool × List Symbol)
  | (bit, q) :: rest => if q = p then some (bit, rest) else none
  | [] => none

/-- `L(n)`: `n` bits, the highest first, behind the value of those before them. -/
def readLiteral : Nat → Nat → List Symbol → Option (Nat × List Symbol)
  | 0, x, symbols => some (x, symbols)
  | n + 1, x, symbols => do
    let (bit, rest) ← readBool 128 symbols
    readLiteral n (2 * x + bit.toNat) rest

/-- `decode_term_subexp`. -/
def decodeTermSubexp (symbols : List Symbol) : Option (Nat × List Symbol) := do
  let (bit, symbols) ← readLiteral 1 0 symbols
  if bit = 0 then return ← readLiteral 4 0 symbols
  let (bit, symbols) ← readLiteral 1 0 symbols
  if bit = 0 then
    let (value, symbols) ← readLiteral 4 0 symbols
    return (value + 16, symbols)
  let (bit, symbols) ← readLiteral 1 0 symbols
  if bit = 0 then
    let (value, symbols) ← readLiteral 5 0 symbols
    return (value + 32, symbols)
  let (v, symbols) ← readLiteral 7 0 symbols
  if v < 65 then return (v + 64, symbols)
  let (bit, symbols) ← readLiteral 1 0 symbols
  return (2 * v - 1 + bit, symbols)

/-- `inv_map_table`: every thirteenth value from 7 on, then the other values in order (there are twelve from
    one of the former to the next), and the last of them, 253, once more. -/
def invMapTable : List Nat :=
  (List.range 20).map (7 + 13 * ·) ++ (List.range 234).map (fun i => i + 1 + (i + 6) / 12) ++ [253]

/-- `inv_recenter_nonneg`. -/
def invRecenterNonneg (v m : Int) : Int :=
  if v > 2 * m then v else if v % 2 = 1 then m - (v + 1) / 2 else m + v / 2

/-- `inv_remap_prob`. -/
def invRemapProb (deltaProb prob : Nat) : Option Nat := do
  let v ← invMapTable[deltaProb]?
  let m : Int := prob - 1
  if 2 * m ≤ 255 then return (1 + invRecenterNonneg v m).toNat
  return (255 - invRecenterNonneg v (255 - 1 - m)).toNat

/-- `diff_update_prob`. -/
def diffUpdateProb (prob : Nat) (symbols : List Symbol) : Option (Nat × List Symbol) := do
  let (update, symbols) ← readBool 252 symbols
  if !update then return (prob, symbols)
  let (deltaProb, symbols) ← decodeTermSubexp symbols
  return (← invRemapProb deltaProb prob, symbols)

/-- `diff_update_prob` of the table's probabilities at the given offsets, in turn. -/
def readOffsets : List Nat → List Nat → List Symbol → Option (List Nat × List Symbol)
  | [], table, symbols => some (table, symbols)
  | offset :: offsets, table, symbols => do
    let (prob, symbols) ← diffUpdateProb (← table[offset]?) symbols
    readOffsets offsets (table.set offset prob) symbols

/-- `tx_mode_to_biggest_tx_size`. -/
def txModeToBiggestTxSize (txMode : Nat) : Nat := min txMode 3

/-- The offsets of `coef_probs[txSz][i][j][k][l][m]` that `read_coef_probs` reads for a size. -/
def coefProbs (txSz : Nat) : List Nat :=
  (List.range 2).flatMap fun i => (List.range 2).flatMap fun j => (List.range 6).flatMap fun k =>
    (List.range (if k = 0 then 3 else 6)).flatMap fun l => (List.range 3).map fun m =>
      ((((txSz * 2 + i) * 2 + j) * 6 + k) * 6 + l) * 3 + m

/-- The loop of `read_coef_probs` over the sizes that are left. -/
def readSizes : List Nat → List Nat → List Symbol → Option (List Nat × List Symbol)
  | [], table, symbols => some (table, symbols)
  | txSz :: sizes, table, symbols => do
    let (updateProbs, symbols) ← readLiteral 1 0 symbols
    let (table, symbols) ←
      if updateProbs = 1 then readOffsets (coefProbs txSz) table symbols else some (table, symbols)
    readSizes sizes table symbols

/-- `read_coef_probs`. -/
def readCoefProbs (txMode : Nat) : List Nat → List Symbol → Option (List Nat × List Symbol) :=
  readSizes (List.range (txModeToBiggestTxSize txMode + 1))

/-! ## 3. One probability -/

theorem mapLut_length : mapLut.length = 254 := by decide +kernel

theorem mapLut_inverse : (∀ v ∈ mapLut, v < 254) ∧
    mapLut.map (fun v => if v < 20 then 7 + 13 * v else v - 20 + 1 + (v - 20 + 6) / 12) = List.range' 1 254 := by
  decide +kernel

theorem invMapTable_of_lt {v : Nat} (h : v < 254) :
    invMapTable[v]? = some (if v < 20 then 7 + 13 * v else v - 20 + 1 + (v - 20 + 6) / 12) := by
  by_cases hv : v < 20
  · simp [invMapTable, List.getElem?_append, hv]
  · simp [invMapTable, List.getElem?_append, hv, show v - 20 < 234 by omega]

theorem invRecenter_recenter (new old : Int) (hnew : 0 ≤ new ∧ new ≤ 254) (hold : 0 ≤ old ∧ old * 2 ≤ 255)
    (hne : new ≠ old) :
    (1 ≤ recenterNonNeg new old ∧ recenterNonNeg new old ≤ 254) ∧
      invRecenterNonneg (recenterNonNeg new old) old = new := by
  unfold recenterNonNeg invRecenterNonneg
  split
  · refine ⟨by omega, ?_⟩
    rw [if_pos (by omega)]
  · split
    · refine ⟨by omega, ?_⟩
      rw [if_neg (by omega), if_neg (by omega)]
      omega
    · refine ⟨by omega, ?_⟩
      rw [if_neg (by omega), if_pos (by omega)]
      omega

theorem remapProbability_spec {new old : Nat} (hnew : 1 ≤ new ∧ new ≤ 255) (hold : 1 ≤ old ∧ old ≤ 255)
    (hne : new ≠ old) :
    ∃ v < 254, remapProbability new old = some v ∧ invRemapProb v old = some new := by
  -- the entry of `map_lut` for a distance is the entry of the inverse table that holds it
  have hentry : ∀ r : Int, 1 ≤ r ∧ r ≤ 254 → ∃ v < 254, mapLut[(max 0 (r - 1)).toNat]? = some v ∧
      ∃ w : Nat, invMapTable[v]? = some w ∧ (w : Int) = r := by
    intro r hr
    have hlt : (max 0 (r - 1)).toNat < mapLut.length := by
      rw [mapLut_length]
      omega
    have hv := mapLut_inverse.1 _ (getElem_mem hlt)
    refine ⟨_, hv, List.getElem?_eq_getElem hlt, _, invMapTable_of_lt hv, ?_⟩
    have hat := congrArg (·[(max 0 (r - 1)).toNat]?) mapLut_inverse.2
    simp only [List.getElem?_map, List.getElem?_eq_getElem hlt, map_some] at hat
    rw [List.getElem?_range' (mapLut_length ▸ hlt)] at hat
    have := some.inj hat
    omega
  by_cases hlow : ((old : Int) - 1) * 2 ≤ 0xff
  · obtain ⟨hr, hback⟩ := invRecenter_recenter ((new : Int) - 1) ((old : Int) - 1) (by omega) (by omega)
      (by omega)
    obtain ⟨v, hv, hmap, w, hinv, hw⟩ := hentry _ hr
    refine ⟨v, hv, by rw [remapProbability, if_pos hlow]; exact hmap, ?_⟩
    simp only [invRemapProb, hinv, bind_eq_bind, bind_some]
    rw [if_pos (by omega), hw, hback]
    simp
  · obtain ⟨hr, hback⟩ := invRecenter_recenter (0xff - 1 - ((new : Int) - 1))
      (0xff - 1 - ((old : Int) - 1)) (by omega) (by omega) (by omega)
    obtain ⟨v, hv, hmap, w, hinv, hw⟩ := hentry _ hr
    refine ⟨v, hv, by rw [remapProbability, if_neg hlow]; exact hmap, ?_⟩
    simp only [invRemapProb, hinv, bind_eq_bind, bind_some]
    rw [if_neg (by omega), hw, hback]
    exact congrArg some (by omega)

theorem readLiteral_writeValue {value : Nat} {rest : List Symbol} :
    ∀ {n x : Nat}, readLiteral n x (writeValue value n ++ rest) = some (x * 2 ^ n + value % 2 ^ n, rest)
  | 0, x => by simp [readLiteral, writeValue, Nat.mod_one]
  | n + 1, x => by
    have hbit : ((value >>> n) &&& 1 != 0).toNat = value / 2 ^ n % 2 := by
      rw [Nat.shiftRight_eq_div_pow, Nat.and_one_is_mod]
      rcases Nat.mod_two_eq_zero_or_one (value / 2 ^ n) with h | h <;> rw [h] <;> rfl
    simp only [writeValue, cons_append, readLiteral, readBool, halfProbability, if_true,
      bind_eq_bind, bind_some]
    rw [readLiteral_writeValue, hbit, Nat.mod_pow_succ, Nat.pow_succ]
    congr 2
    ring

theorem readLiteral_of_lt (value n : Nat) {rest : List Symbol} (h : value < 2 ^ n) :
    readLiteral n 0 (writeValue value n ++ rest) = some (value, rest) := by
  rw [readLiteral_writeValue, Nat.zero_mul, Nat.zero_add, Nat.mod_eq_of_lt h]

theorem readLiteral_writeLessThan {value test : Nat} {rest : List Symbol} :
    readLiteral 1 0 (writeLessThan value test ++ rest) = some (if value < test then 0 else 1, rest) := by
  by_cases h : value < test <;> simp [h, writeLessThan, readLiteral, readBool, halfProbability]

/-- **Every entry of `map_lut` is read back** by the four ranges of the code. -/
theorem decodeTermSubexp_encode {value : Nat} {rest : List Symbol} (h : value < 254) :
    decodeTermSubexp (encodeTermSubExp value ++ rest) = some (value, rest) := by
  unfold decodeTermSubexp encodeTermSubExp
  simp only [append_assoc, readLiteral_writeLessThan, bind_eq_bind, bind_some]
  by_cases h16 : value < 16
  · simp [h16, readLiteral_of_lt value 4 (by omega)]
  by_cases h32 : value < 32
  · simp [h16, h32, readLiteral_writeLessThan, readLiteral_of_lt (value - 16) 4 (by omega)]
    omega
  by_cases h64 : value < 64
  · simp [h16, h32, h64, readLiteral_writeLessThan, readLiteral_of_lt (value - 32) 5 (by omega)]
    omega
  -- behind the mask the low bit stands on its own
  obtain ⟨v, rfl⟩ := Nat.exists_eq_add_of_le' (Nat.le_of_not_lt h64)
  by_cases hmask : v < 65
  · simp [h16, h32, hmask, readLiteral_writeLessThan, readLiteral_of_lt v 7 (by omega)]
  · simp [h16, h32, hmask, readLiteral_writeLessThan, readLiteral_of_lt ((v - 65) / 2 + 65) 7 (by omega),
      readLiteral_of_lt ((v - 65) % 2) 1 (by omega)]
    omega

/-- **One probability is read back** from its update, whatever follows. -/
theorem diffUpdateProb_write {new old : Nat} (hnew : 1 ≤ new ∧ new ≤ 255) (hold : 1 ≤ old ∧ old ≤ 255) :
    ∃ symbols, writeProbabilityUpdate new old = some symbols ∧
      ∀ rest, diffUpdateProb old (symbols ++ rest) = some (new, rest) := by
  by_cases heq : new = old
  · exact ⟨_, if_pos heq, fun rest => by simp [diffUpdateProb, readBool, diffUpdateProbability, heq]⟩
  · obtain ⟨v, hv, hmap, hinv⟩ := remapProbability_spec hnew hold heq
    refine ⟨_, by rw [writeProbabilityUpdate, if_neg heq, writeProbabilityDelta, hmap]; rfl, fun rest => ?_⟩
    simp [diffUpdateProb, readBool, diffUpdateProbability, decodeTermSubexp_encode hv, hinv]

/-! ## 4. Arrays -/

/-- An array of `n` probabilities. -/
structure Probabilities (n : Nat) where
  values : List Nat
  size : values.length = n
  range : ∀ p ∈ values, 1 ≤ p ∧ p ≤ 255

/-- The table holds the new values at the carried offsets and the old ones at the others. -/
def Updated (new old table carried : List Nat) : Prop :=
  ∀ i, table[i]? = if i ∈ carried then new[i]? else old[i]?

/-- **The written symbols decode to the new table**: they are parsed from the old table, the parser stops
    where they end, and of the new values it has those at the carried offsets. -/
def Decodes (new old : List Nat) (written : Option (List Symbol))
    (parse : List Nat → List Symbol → Option (List Nat × List Symbol)) (carried : List Nat) : Prop :=
  ∃ symbols, written = some symbols ∧
    ∀ rest, ∃ table, parse old (symbols ++ rest) = some (table, rest) ∧ Updated new old table carried

section Arrays

variable {n : Nat} {new old : Probabilities n} {table carried : List Nat}

theorem updated_nil : Updated new.values old.values old.values [] := fun _ => rfl

theorem Updated.set {offset prob : Nat} (h : Updated new.values old.values table carried)
    (hnew : new.values[offset]? = some prob) (hfresh : offset ∉ carried) (hold : offset < old.values.length) :
    Updated new.values old.values (table.set offset prob) (carried ++ [offset]) := by
  have htable : offset < table.length := by
    have := h offset
    rw [if_neg hfresh, List.getElem?_eq_getElem hold] at this
    exact (List.getElem?_eq_some_iff.mp this).1
  intro i
  by_cases hi : offset = i
  · subst hi
    rw [List.getElem?_set_self htable, if_pos (by simp), hnew]
  · rw [List.getElem?_set_ne hi, h i]
    have hne : i ≠ offset := Ne.symm hi
    simp [hne]

/-- **Offsets in turn**, each new to the table. -/
theorem readOffsets_write (new old : Probabilities n) : ∀ (offsets carried : List Nat), offsets.Nodup →
    (∀ i ∈ offsets, i < n ∧ i ∉ carried) →
    ∃ symbols, writeOffsets new.values old.values offsets = some symbols ∧
      ∀ table rest, Updated new.values old.values table carried →
        ∃ table', readOffsets offsets table (symbols ++ rest) = some (table', rest) ∧
          Updated new.values old.values table' (carried ++ offsets)
  | [], carried, _, _ => ⟨[], rfl, fun table rest h => ⟨table, rfl, by rwa [append_nil]⟩⟩
  | offset :: offsets, carried, hnodup, hin => by
    rw [nodup_cons] at hnodup
    obtain ⟨hlt, hfresh⟩ := hin offset mem_cons_self
    have hnew := List.getElem?_eq_getElem (new.size.symm ▸ hlt)
    have hold := List.getElem?_eq_getElem (old.size.symm ▸ hlt)
    obtain ⟨head, hhead, hread⟩ := diffUpdateProb_write (new.range _ (mem_of_getElem? hnew))
      (old.range _ (mem_of_getElem? hold))
    obtain ⟨tail, htail, hrest⟩ := readOffsets_write new old offsets (carried ++ [offset]) hnodup.2
      fun i hi => ⟨(hin i (mem_cons_of_mem _ hi)).1, by
        have := (hin i (mem_cons_of_mem _ hi)).2
        have : i ≠ offset := fun h => hnodup.1 (h ▸ hi)
        simp_all⟩
    refine ⟨head ++ tail, by simp [writeOffsets, hnew, hold, hhead, htail], fun table rest h => ?_⟩
    have hat : table[offset]? = old.values[offset]? := by rw [h offset, if_neg hfresh]
    obtain ⟨table', hstep, h'⟩ := hrest _ rest (h.set hnew hfresh (old.size.symm ▸ hlt))
    refine ⟨table', ?_, by rwa [append_assoc] at h'⟩
    simp only [readOffsets, hat, hold, bind_eq_bind, bind_some, append_assoc, hread, hstep]

theorem decodes_offsets {offsets : List Nat} (hnodup : offsets.Nodup) (hin : ∀ i ∈ offsets, i < n) :
    Decodes new.values old.values (writeOffsets new.values old.values offsets) (readOffsets offsets)
      offsets := by
  obtain ⟨symbols, hwritten, hread⟩ := readOffsets_write new old offsets [] hnodup
    fun i hi => ⟨hin i hi, not_mem_nil⟩
  exact ⟨symbols, hwritten, fun rest => hread _ rest updated_nil⟩

end Arrays

/-! ## 5. The offsets of the forms -/

theorem mem_aligned4 {size i : Nat} : i ∈ aligned4 size ↔ i / 4 < (size + 3) / 4 ∧ i % 4 ≠ 3 := by
  simp only [aligned4, mem_flatMap, mem_range, mem_cons, not_mem_nil, or_false]
  constructor
  · intro ⟨group, hgroup, hi⟩
    omega
  · intro ⟨hgroup, hi⟩
    exact ⟨i / 4, hgroup, by omega⟩

theorem aligned4_nodup {size : Nat} : (aligned4 size).Nodup := by
  rw [aligned4, List.Nodup, pairwise_flatMap]
  refine ⟨fun group _ => by simp, nodup_range.imp fun {a b} hab i hi j hj => ?_⟩
  simp only [mem_cons, not_mem_nil, or_false] at hi hj
  omega

/-- The offsets of a block increase, and lie in it. -/
theorem coefOffsets_increase : ∀ (cells : List (Nat × Nat)) (index : Nat),
    (coefOffsets cells index).Pairwise (· < ·) ∧
      ∀ i ∈ coefOffsets cells index, index ≤ i ∧ i < index + 3 * cells.length
  | [], _ => ⟨List.Pairwise.nil, fun _ hi => absurd hi not_mem_nil⟩
  | (k, l) :: rest, index => by
    obtain ⟨hlt, hin⟩ := coefOffsets_increase rest (index + 3)
    rw [coefOffsets, length_cons]
    split
    · refine ⟨?_, fun i hi => ?_⟩
      · simp only [cons_append, nil_append, pairwise_cons, mem_cons]
        refine ⟨?_, ?_, fun i hi => Nat.lt_of_succ_le (hin i hi).1, hlt⟩
        · intro i hi
          obtain rfl | rfl | hi := hi
          · omega
          · omega
          · have := hin i hi
            omega
        · intro i hi
          obtain rfl | hi := hi
          · omega
          · have := hin i hi
            omega
      · simp only [cons_append, nil_append, mem_cons] at hi
        obtain rfl | rfl | rfl | hi := hi
        · omega
        · omega
        · omega
        · have := hin i hi
          omega
    · exact ⟨hlt, fun i hi => by have := hin i hi; omega⟩

theorem coefOffsets_add (base : Nat) : ∀ (cells : List (Nat × Nat)) (index : Nat),
    coefOffsets cells (base + index) = (coefOffsets cells index).map (base + ·)
  | [], _ => rfl
  | (k, l) :: rest, index => by
    rw [coefOffsets, coefOffsets, map_append, ← coefOffsets_add base rest]
    split <;> rfl

theorem coefProbs_add (block : Nat) : coefProbs block = (coefProbs 0).map (block * blockBytes + ·) := by
  simp only [coefProbs, map_flatMap, List.map_map]
  refine flatMap_congr fun i _ => flatMap_congr fun j _ => flatMap_congr fun k _ => flatMap_congr fun l _ =>
    map_congr_left fun m _ => ?_
  simp only [Function.comp, blockBytes]
  omega

theorem coefOffsets_eq (block : Nat) : coefOffsets turns (block * blockBytes) = coefProbs block := by
  have hfirst : coefOffsets turns 0 = coefProbs 0 := by decide +kernel
  rw [coefProbs_add, ← hfirst, ← coefOffsets_add, Nat.add_zero]

theorem coefProbs_nodup {block : Nat} : (coefProbs block).Nodup := by
  rw [← coefOffsets_eq block]
  exact (coefOffsets_increase _ _).1.imp Nat.ne_of_lt

theorem mem_coefProbs {block i : Nat} (hi : i ∈ coefProbs block) :
    block * blockBytes ≤ i ∧ i < block * blockBytes + blockBytes := by
  rw [← coefOffsets_eq block] at hi
  have hlength : 3 * turns.length = blockBytes := by decide +kernel
  have hin := (coefOffsets_increase _ _).2 i hi
  rwa [hlength] at hin

/-! ## 6. Blocks -/

section Blocks

variable {new old : Probabilities 1728} {table carried : List Nat}

theorem updated_of_not_needsUpdate {block : Nat}
    (h : needsUpdate new.values old.values (block * blockBytes) = false)
    (ht : Updated new.values old.values table carried) :
    Updated new.values old.values table (carried ++ coefProbs block) := by
  have heq := bne_eq_false_iff_eq.mp h
  intro i
  rw [ht i]
  by_cases hi : i ∈ coefProbs block
  · obtain ⟨hlow, hhigh⟩ := mem_coefProbs hi
    have hat := congrArg (·[i - block * blockBytes]?) heq
    simp only [List.getElem?_take_of_lt (Nat.sub_lt_left_of_lt_add hlow hhigh), List.getElem?_drop,
      Nat.add_sub_cancel' hlow] at hat
    simp [hi, hat]
  · simp [hi]

theorem readSizes_writeBlock (new old : Probabilities 1728) {block : Nat} (hblock : block < 4) (hfresh : ∀ i ∈ coefProbs block, i ∉ carried) :
    ∃ symbols, writeCoefBlock new.values old.values block = some symbols ∧
      ∀ table rest, Updated new.values old.values table carried →
        ∃ table', Updated new.values old.values table' (carried ++ coefProbs block) ∧
          ∀ sizes, readSizes (block :: sizes) table (symbols ++ rest) = readSizes sizes table' rest := by
  cases hupdate : needsUpdate new.values old.values (block * blockBytes) with
  | false =>
    refine ⟨[(false, halfProbability)], by simp [writeCoefBlock, hupdate], fun table rest h => ?_⟩
    refine ⟨table, updated_of_not_needsUpdate hupdate h, fun sizes => ?_⟩
    simp [readSizes, readLiteral, readBool, halfProbability]
  | true =>
    obtain ⟨body, hbody, hread⟩ := readOffsets_write new old _ _ coefProbs_nodup
      fun i hi => ⟨by have := mem_coefProbs hi; simp only [blockBytes] at this; omega, hfresh i hi⟩
    refine ⟨(true, halfProbability) :: body,
      by simp [writeCoefBlock, hupdate, coefOffsets_eq block, hbody], fun table rest h => ?_⟩
    obtain ⟨table', hstep, h'⟩ := hread table rest h
    refine ⟨table', h', fun sizes => ?_⟩
    simp [readSizes, readLiteral, readBool, halfProbability, hstep]

/-- The blocks up to the one at which the writer's loop stops. -/
def upTo (txMode : Nat) : List Nat → List Nat
  | [] => []
  | block :: rest => if block = txMode then [block] else block :: upTo txMode rest

/-- **Blocks in turn**, each new to the table, until the loop stops. -/
theorem readSizes_write (new old : Probabilities 1728) (txMode : Nat) :
    ∀ (blocks carried : List Nat), blocks.Nodup →
    (∀ b ∈ blocks, b < 4 ∧ ∀ i ∈ coefProbs b, i ∉ carried) →
    ∃ symbols, writeCoefBlocks txMode new.values old.values blocks = some symbols ∧
      ∀ table rest, Updated new.values old.values table carried →
        ∃ table', readSizes (upTo txMode blocks) table (symbols ++ rest) = some (table', rest) ∧
          Updated new.values old.values table' (carried ++ (upTo txMode blocks).flatMap coefProbs)
  | [], carried, _, _ => ⟨[], rfl, fun table rest h => ⟨table, rfl, by simpa [upTo] using h⟩⟩
  | block :: blocks, carried, hnodup, hin => by
    rw [nodup_cons] at hnodup
    obtain ⟨hblock, hfresh⟩ := hin block mem_cons_self
    obtain ⟨head, hhead, hread⟩ := readSizes_writeBlock new old hblock hfresh
    rw [writeCoefBlocks, upTo, hhead]
    split
    · refine ⟨head, rfl, fun table rest h => ?_⟩
      obtain ⟨table', h', hstep⟩ := hread table rest h
      exact ⟨table', hstep [], by simpa using h'⟩
    · obtain ⟨tail, htail, hrest⟩ := readSizes_write new old txMode blocks (carried ++ coefProbs block)
        hnodup.2
        fun b hb => ⟨(hin b (mem_cons_of_mem _ hb)).1, fun i hi hmem => by
          obtain hmem | hmem := mem_append.mp hmem
          · exact (hin b (mem_cons_of_mem _ hb)).2 i hi hmem
          · -- two blocks share no offset
            have hb' := mem_coefProbs hi
            have hblock' := mem_coefProbs hmem
            have hne : b ≠ block := fun h => hnodup.1 (h ▸ hb)
            simp only [blockBytes] at hb' hblock'
            omega⟩
      refine ⟨head ++ tail, by simp [htail], fun table rest h => ?_⟩
      obtain ⟨table1, h1, hstep⟩ := hread table (tail ++ rest) h
      obtain ⟨table2, hstep2, h2⟩ := hrest table1 rest h1
      refine ⟨table2, by rw [append_assoc, hstep, hstep2], ?_⟩
      rwa [flatMap_cons, ← append_assoc]

theorem upTo_range : ∀ txMode ≤ 4, upTo txMode (List.range 4) = List.range (txModeToBiggestTxSize txMode + 1) := by
  decide

end Blocks

/-! ## 7. All forms -/

/-- **Probability updates decode to the new tables.** For probabilities in 1..255, the symbols of each form
    (one value; an array; three of every four values; the coefficients for a `tx_mode` in 0..4) are parsed by
    the specification's reader of that form from the old values, the parse ends where the symbols end, and it
    yields the new value wherever the syntax carries one. `map_lut` is never indexed out of range. -/
theorem updates_decode :
    (∀ new old : {p : Nat // 1 ≤ p ∧ p ≤ 255}, ∃ symbols, writeProbabilityUpdate new old = some symbols ∧
      ∀ rest, diffUpdateProb old (symbols ++ rest) = some (new.val, rest)) ∧
    (∀ (n : Nat) (new old : Probabilities n),
      Decodes new.values old.values (writeProbabilityUpdateArray new.values old.values)
        (readOffsets (List.range n)) (List.range n)) ∧
    (∀ (n : Nat) (new old : Probabilities (4 * n)),
      Decodes new.values old.values (writeProbabilityUpdateAligned4 new.values old.values)
        (readOffsets (aligned4 (4 * n))) (aligned4 (4 * n))) ∧
    (∀ (txMode : Fin 5) (new old : Probabilities 1728),
      Decodes new.values old.values (writeCoefProbabilityUpdate txMode new.values old.values)
        (readCoefProbs txMode) ((List.range (txModeToBiggestTxSize txMode + 1)).flatMap coefProbs)) := by
  refine ⟨fun new old => diffUpdateProb_write new.2 old.2, fun n new old => ?_, fun n new old => ?_,
    fun txMode new old => ?_⟩
  · rw [writeProbabilityUpdateArray, new.size]
    exact decodes_offsets nodup_range fun i hi => mem_range.mp hi
  · rw [writeProbabilityUpdateAligned4, new.size]
    refine decodes_offsets aligned4_nodup fun i hi => ?_
    have := mem_aligned4.mp hi
    omega
  · obtain ⟨symbols, hwritten, hread⟩ := readSizes_write new old txMode (List.range 4) []
      nodup_range fun b hb => ⟨mem_range.mp hb, fun _ _ => not_mem_nil⟩
    rw [upTo_range txMode (Nat.le_of_lt_succ txMode.2)] at hread
    exact ⟨symbols, hwritten, fun rest => hread _ rest updated_nil⟩

end Yuzu.VideoCore.Vp9
