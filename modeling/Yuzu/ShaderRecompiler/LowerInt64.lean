/-
  File:      Yuzu/ShaderRecompiler/LowerInt64.lean
  Subject:   The pass that lowers 64-bit integers to pairs of words (`LowerInt64ToInt32`): the
             sequences of 32-bit instructions it emits, by the values they compute.

  Every call of the emitter stands for the value of the instruction it emits. Where the target
  leaves a result open (a shift by 32 or more, a field that leaves the word), it is that of the
  assignment, any word.
-/
import Yuzu.ShaderRecompiler.IrMeaning

namespace Yuzu.Shader

open BitVec

/-! ## 1. The emitted instructions -/

/-- An emitted `IAdd32`, with the carry that `GetCarryFromOp` reads. -/
structure IAdd32 where
  result : BitVec 32
  carry : Bool
  deriving DecidableEq, Repr

def iAdd (a b : BitVec 32) : IAdd32 := ⟨a + b, decide (2 ^ 32 ≤ a.toNat + b.toNat)⟩

def getCarryFromOp (op : IAdd32) : Bool := op.carry

/-- `Select` of words. -/
def select (condition : Bool) (trueValue falseValue : BitVec 32) : BitVec 32 :=
  if condition then trueValue else falseValue

def iEqual (lhs rhs : BitVec 32) : Bool := decide (lhs.toNat = rhs.toNat)

def iGreaterThan (lhs rhs : BitVec 32) (isSigned : Bool) : Bool :=
  if isSigned then decide (rhs.toInt < lhs.toInt) else decide (rhs.toNat < lhs.toNat)

def iGreaterThanEqual (lhs rhs : BitVec 32) (isSigned : Bool) : Bool :=
  if isSigned then decide (rhs.toInt ≤ lhs.toInt) else decide (rhs.toNat ≤ lhs.toNat)

/-- `ShiftRightLogical32`. -/
def Assignment.shiftRightLogical (σ : Assignment) (a b : BitVec 32) : BitVec 32 :=
  if b.toNat < 32 then a >>> b.toNat else σ.undefined (.other 0 .u32) [a, b]

/-- A 64-bit value after the pass: an immediate, or a composite of two words. -/
inductive Packed where
  | imm (value : BitVec 64)
  | composite (lo hi : BitVec 32)
  deriving DecidableEq, Repr

/-- The 64-bit value. -/
def Packed.value : Packed → BitVec 64
  | .imm value => value
  | .composite lo hi => hi ++ lo

/-- `Unpack`. -/
def unpack : Packed → BitVec 32 × BitVec 32
  | .imm value => (value.setWidth 32, (value >>> 32).setWidth 32)
  | .composite lo hi => (lo, hi)

/-! ## 2. The sequences -/

def iAdd64To32 (a b : Packed) : Packed :=
  let (aLo, aHi) := unpack a
  let (bLo, bHi) := unpack b
  let retLo := iAdd aLo bLo
  let carry := select (getCarryFromOp retLo) 1 0
  let retHi := iAdd (iAdd aHi bHi).result carry
  .composite retLo.result retHi.result

def iSub64To32 (a b : Packed) : Packed :=
  let (aLo, aHi) := unpack a
  let (bLo, bHi) := unpack b
  let retLo := aLo - bLo
  let underflow := iGreaterThan retLo aLo false
  let underflowBit := select underflow 1 0
  let retHi := aHi - bHi - underflowBit
  .composite retLo retHi

def iNeg64To32 (a : Packed) : Packed :=
  let (lo, hi) := unpack a
  let lo := ~~~lo
  let hi := ~~~hi
  let lo := iAdd lo 1
  let carry := select (getCarryFromOp lo) 1 0
  let hi := iAdd hi carry
  .composite lo.result hi.result

def shiftLeftLogical64To32 (σ : Assignment) (base : Packed) (shift : BitVec 32) : Packed :=
  let (lo, hi) := unpack base
  let shiftedLo := σ.shiftLeft lo shift
  let shiftedHi := σ.shiftLeft hi shift
  let invShift := shift - 32
  let isLong := iGreaterThanEqual invShift 0 true
  let isZero := iEqual shift 0
  let longRetLo := 0
  let longRetHi := σ.shiftLeft lo invShift
  let shiftComplement := 32 - shift
  let loExtract := σ.uExtract lo shiftComplement shift
  let shortRetLo := shiftedLo
  let shortRetHi := shiftedHi ||| loExtract
  let zeroRetLo := lo
  let zeroRetHi := hi
  let nonZeroLo := select isLong longRetLo shortRetLo
  let nonZeroHi := select isLong longRetHi shortRetHi
  let retLo := select isZero zeroRetLo nonZeroLo
  let retHi := select isZero zeroRetHi nonZeroHi
  .composite retLo retHi

def shiftRightLogical64To32 (σ : Assignment) (base : Packed) (shift : BitVec 32) : Packed :=
  let (lo, hi) := unpack base
  let shiftedLo := σ.shiftRightLogical lo shift
  let shiftedHi := σ.shiftRightLogical hi shift
  let invShift := shift - 32
  let isLong := iGreaterThanEqual invShift 0 true
  let isZero := iEqual shift 0
  let longRetHi := 0
  let longRetLo := σ.shiftRightLogical hi invShift
  let shiftComplement := 32 - shift
  let shortHiExtract := σ.uExtract hi 0 shift
  let shortRetHi := shiftedHi
  let shortRetLo := σ.insert shiftedLo shortHiExtract shiftComplement shift
  let zeroRetLo := lo
  let zeroRetHi := hi
  let nonZeroLo := select isLong longRetLo shortRetLo
  let nonZeroHi := select isLong longRetHi shortRetHi
  let retLo := select isZero zeroRetLo nonZeroLo
  let retHi := select isZero zeroRetHi nonZeroHi
  .composite retLo retHi

def shiftRightArithmetic64To32 (σ : Assignment) (base : Packed) (shift : BitVec 32) : Packed :=
  let (lo, hi) := unpack base
  let shiftedLo := σ.shiftRightLogical lo shift
  let shiftedHi := σ.shiftRight hi shift
  let signExtension := σ.shiftRight hi 31
  let invShift := shift - 32
  let isLong := iGreaterThanEqual invShift 0 true
  let isZero := iEqual shift 0
  let longRetHi := signExtension
  let longRetLo := σ.shiftRight hi invShift
  let shiftComplement := 32 - shift
  let shortHiExtract := σ.uExtract hi 0 shift
  let shortRetHi := shiftedHi
  let shortRetLo := σ.insert shiftedLo shortHiExtract shiftComplement shift
  let zeroRetLo := lo
  let zeroRetHi := hi
  let nonZeroLo := select isLong longRetLo shortRetLo
  let nonZeroHi := select isLong longRetHi shortRetHi
  let retLo := select isZero zeroRetLo nonZeroLo
  let retHi := select isZero zeroRetHi nonZeroHi
  .composite retLo retHi

/-- The 64-bit instructions that have a sequence. -/
inductive Inst64 where
  | iAdd64 (a b : Packed) | iSub64 (a b : Packed) | iNeg64 (a : Packed)
  | shiftLeftLogical64 (base : Packed) (shift : BitVec 32)
  | shiftRightLogical64 (base : Packed) (shift : BitVec 32)
  | shiftRightArithmetic64 (base : Packed) (shift : BitVec 32)
  deriving DecidableEq, Repr

/-- **The two's-complement operation.** -/
def Inst64.value : Inst64 → BitVec 64
  | .iAdd64 a b => a.value + b.value
  | .iSub64 a b => a.value - b.value
  | .iNeg64 a => -a.value
  | .shiftLeftLogical64 base shift => base.value <<< shift.toNat
  | .shiftRightLogical64 base shift => base.value >>> shift.toNat
  | .shiftRightArithmetic64 base shift => base.value.sshiftRight shift.toNat

/-- The shift amount is one of a 64-bit word. -/
def Inst64.ShiftsInside : Inst64 → Prop
  | .shiftLeftLogical64 _ shift | .shiftRightLogical64 _ shift
  | .shiftRightArithmetic64 _ shift => shift.toNat < 64
  | _ => True

/-- `Lower`; none where it throws, for an instruction that has pseudo-operations. -/
def lower (σ : Assignment) (hasAssociatedPseudoOperation : Bool) (inst : Inst64) : Option Packed :=
  if hasAssociatedPseudoOperation then none
  else match inst with
    | .iAdd64 a b => some (iAdd64To32 a b)
    | .iSub64 a b => some (iSub64To32 a b)
    | .iNeg64 a => some (iNeg64To32 a)
    | .shiftLeftLogical64 base shift => some (shiftLeftLogical64To32 σ base shift)
    | .shiftRightLogical64 base shift => some (shiftRightLogical64To32 σ base shift)
    | .shiftRightArithmetic64 base shift => some (shiftRightArithmetic64To32 σ base shift)

/-! ## 3. Halves -/

section Halves

variable {σ : Assignment} {lo hi : BitVec 32} {shift : BitVec 32} {p q : Packed} {k : Nat}

theorem toNat_halves : (hi ++ lo).toNat = hi.toNat * 2 ^ 32 + lo.toNat := by
  rw [toNat_append, ← Nat.shiftLeft_add_eq_or_of_lt lo.isLt, Nat.shiftLeft_eq]

/-- **The halves of an operand** are those of its value. -/
theorem unpack_value : (unpack p).2 ++ (unpack p).1 = p.value := by
  cases p with
  | composite lo hi => rfl
  | imm value =>
    apply eq_of_toNat_eq
    rw [toNat_halves, unpack, Packed.value, toNat_setWidth, toNat_setWidth,
      toNat_ushiftRight, Nat.shiftRight_eq_div_pow]
    have hlt := value.isLt
    omega

theorem toNat_select {c : Bool} : (select c 1 0).toNat = if c then 1 else 0 := by
  cases c <;> rfl

theorem iAdd64To32_value : (iAdd64To32 p q).value = p.value + q.value := by
  rw [← @unpack_value p, ← @unpack_value q, iAdd64To32, Packed.value]
  generalize (unpack p).1 = aLo, (unpack p).2 = aHi, (unpack q).1 = bLo, (unpack q).2 = bHi
  apply eq_of_toNat_eq
  simp only [toNat_halves, iAdd, getCarryFromOp, toNat_add, toNat_select]
  by_cases hcarry : 2 ^ 32 ≤ aLo.toNat + bLo.toNat
  · rw [decide_eq_true hcarry, if_pos rfl]
    omega
  · rw [decide_eq_false hcarry, if_neg Bool.false_ne_true]
    omega

theorem iSub64To32_value : (iSub64To32 p q).value = p.value - q.value := by
  rw [← @unpack_value p, ← @unpack_value q, iSub64To32, Packed.value]
  generalize (unpack p).1 = aLo, (unpack p).2 = aHi, (unpack q).1 = bLo, (unpack q).2 = bHi
  apply eq_of_toNat_eq
  have hlo := aLo.isLt
  have hlo' := bLo.isLt
  simp only [toNat_halves, iGreaterThan, toNat_sub, toNat_select, Bool.false_eq_true, if_false]
  by_cases hborrow : aLo.toNat < (2 ^ 32 - bLo.toNat + aLo.toNat) % 2 ^ 32
  · rw [decide_eq_true hborrow, if_pos rfl]
    omega
  · rw [decide_eq_false hborrow, if_neg Bool.false_ne_true]
    omega

theorem iNeg64To32_value : (iNeg64To32 p).value = -p.value := by
  rw [← @unpack_value p, iNeg64To32, Packed.value]
  generalize (unpack p).1 = lo, (unpack p).2 = hi
  apply eq_of_toNat_eq
  have hlo := lo.isLt
  have hhi := hi.isLt
  have hone : (1 : BitVec 32).toNat = 1 := rfl
  simp only [toNat_halves, iAdd, getCarryFromOp, toNat_add, toNat_not, toNat_neg, toNat_select, hone]
  by_cases hcarry : 2 ^ 32 ≤ 2 ^ 32 - 1 - lo.toNat + 1
  · rw [decide_eq_true hcarry, if_pos rfl]
    omega
  · rw [decide_eq_false hcarry, if_neg Bool.false_ne_true]
    omega

/-! ## 4. Shifts of halves -/

theorem getLsbD_halves {i : Nat} :
    (hi ++ lo).getLsbD i = if i < 32 then lo.getLsbD i else hi.getLsbD (i - 32) :=
  getLsbD_append

theorem halves_ext {w : BitVec (32 + 32)} (hlo : ∀ i < 32, lo.getLsbD i = w.getLsbD i)
    (hhi : ∀ i < 32, hi.getLsbD i = w.getLsbD (i + 32)) : hi ++ lo = w := by
  refine eq_of_getLsbD_eq fun i hi' => ?_
  rw [getLsbD_halves]
  by_cases hlow : i < 32
  · rw [if_pos hlow, hlo i hlow]
  · rw [if_neg hlow, hhi (i - 32) (by omega), Nat.sub_add_cancel (by omega)]

theorem short_left (hk : k < 32) :
    ((hi <<< k) ||| fieldU lo (32 - k) k) ++ (lo <<< k) = (hi ++ lo) <<< k := by
  refine halves_ext (fun i hi' => ?_) fun i hi' => ?_
  · rw [getLsbD_shiftLeft, getLsbD_shiftLeft (hi ++ lo), getLsbD_halves, if_pos (by omega)]
    simp [hi', show i < 64 by omega]
  · rw [getLsbD_or, getLsbD_fieldU, getLsbD_shiftLeft, getLsbD_shiftLeft (hi ++ lo), getLsbD_halves]
    by_cases hik : i < k
    · simp [hik, hi', show i + 32 < 64 by omega, show ¬ i + 32 < k by omega,
        show i + 32 - k < 32 by omega, show 32 - k + i = i + 32 - k by omega]
    · simp [hik, hi', show i + 32 < 64 by omega, show ¬ i + 32 < k by omega,
        show ¬ i + 32 - k < 32 by omega, show i + 32 - k - 32 = i - k by omega]

theorem long_left (hk : 32 ≤ k) : (lo <<< (k - 32)) ++ (0 : BitVec 32) = (hi ++ lo) <<< k := by
  refine halves_ext (fun i hi' => ?_) fun i hi' => ?_
  · rw [getLsbD_shiftLeft (hi ++ lo), decide_eq_true (by omega : i < k)]
    simp
  · rw [getLsbD_shiftLeft, getLsbD_shiftLeft (hi ++ lo), getLsbD_halves]
    by_cases hik : i + 32 < k
    · simp [hik, show i < k - 32 by omega]
    · simp [hik, hi', show i + 32 < 64 by omega, show ¬ i < k - 32 by omega,
        show i + 32 - k < 32 by omega, show i - (k - 32) = i + 32 - k by omega]

theorem getLsbD_short_right {i : Nat} (hk : k < 32) (hi' : i < 32) :
    (fieldInsert (lo >>> k) (fieldU hi 0 k) (32 - k) k).getLsbD i = (hi ++ lo).getLsbD (k + i) := by
  rw [getLsbD_fieldInsert hi', getLsbD_halves, getLsbD_fieldU, getLsbD_ushiftRight]
  by_cases hin : 32 - k ≤ i
  · rw [if_pos (by omega), if_neg (by omega), Nat.zero_add,
      decide_eq_true (by omega : i - (32 - k) < 32 ∧ i - (32 - k) < k), Bool.true_and]
    congr 1
    omega
  · rw [if_neg (by omega), if_pos (by omega)]

theorem short_right (hk : k < 32) :
    (hi >>> k) ++ fieldInsert (lo >>> k) (fieldU hi 0 k) (32 - k) k = (hi ++ lo) >>> k := by
  refine halves_ext (fun i hi' => ?_) fun i hi' => ?_
  · rw [getLsbD_short_right hk hi', getLsbD_ushiftRight]
  · rw [getLsbD_ushiftRight, getLsbD_ushiftRight (hi ++ lo), getLsbD_halves, if_neg (by omega)]
    congr 1

theorem long_right (hk : 32 ≤ k) : (0 : BitVec 32) ++ (hi >>> (k - 32)) = (hi ++ lo) >>> k := by
  refine halves_ext (fun i hi' => ?_) fun i hi' => ?_
  · rw [getLsbD_ushiftRight, getLsbD_ushiftRight (hi ++ lo), getLsbD_halves, if_neg (by omega)]
    congr 1
    omega
  · rw [getLsbD_ushiftRight (hi ++ lo), getLsbD_halves, if_neg (by omega), getLsbD_of_ge hi _ (by omega)]
    exact getLsbD_zero

theorem msb_halves : (hi ++ lo).msb = hi.msb := by
  rw [msb_append]
  simp

theorem getLsbD_sshiftRight_halves {i : Nat} (hi' : i < 64) : ((hi ++ lo).sshiftRight k).getLsbD i =
      if k + i < 64 then (hi ++ lo).getLsbD (k + i) else hi.msb := by
  rw [getLsbD_sshiftRight, msb_halves, decide_eq_false (by omega : ¬ 32 + 32 ≤ i)]
  rfl

theorem short_arithmetic (hk : k < 32) :
    (hi.sshiftRight k) ++ fieldInsert (lo >>> k) (fieldU hi 0 k) (32 - k) k = (hi ++ lo).sshiftRight k := by
  refine halves_ext (fun i hi' => ?_) fun i hi' => ?_
  · rw [getLsbD_short_right hk hi', getLsbD_sshiftRight_halves (by omega), if_pos (by omega)]
  · rw [getLsbD_sshiftRight_halves (by omega), getLsbD_sshiftRight, getLsbD_halves,
      decide_eq_false (by omega : ¬ 32 ≤ i)]
    by_cases hsign : k + i < 32
    · rw [if_pos hsign, if_pos (by omega), if_neg (by omega), (by omega : k + (i + 32) - 32 = k + i)]
      rfl
    · rw [if_neg hsign, if_neg (by omega)]
      rfl

theorem getLsbD_sign {i : Nat} (hi' : i < 32) : (hi.sshiftRight 31).getLsbD i = hi.msb := by
  rw [getLsbD_sshiftRight, decide_eq_false (by omega : ¬ 32 ≤ i)]
  by_cases hzero : 31 + i < 32
  · obtain rfl : i = 0 := by omega
    rw [if_pos hzero, msb_eq_getLsbD_last]
    rfl
  · rw [if_neg hzero]
    rfl

theorem long_arithmetic (hk : 32 ≤ k) :
    (hi.sshiftRight 31) ++ (hi.sshiftRight (k - 32)) = (hi ++ lo).sshiftRight k := by
  refine halves_ext (fun i hi' => ?_) fun i hi' => ?_
  · rw [getLsbD_sshiftRight_halves (by omega), getLsbD_sshiftRight, getLsbD_halves,
      decide_eq_false (by omega : ¬ 32 ≤ i)]
    by_cases hsign : k - 32 + i < 32
    · rw [if_pos hsign, if_pos (by omega), if_neg (by omega), (by omega : k + i - 32 = k - 32 + i)]
      rfl
    · rw [if_neg hsign, if_neg (by omega)]
      rfl
  · rw [getLsbD_sign hi', getLsbD_sshiftRight_halves (by omega), if_neg (by omega)]

/-! ## 5. The sequences of the shifts -/

theorem toNat_sub_32 (hk : 32 ≤ shift.toNat) : (shift - 32).toNat = shift.toNat - 32 := by
  have hlt := shift.isLt
  have h32 : (32 : BitVec 32).toNat = 32 := rfl
  rw [toNat_sub, h32]
  omega

theorem toNat_32_sub (hk : shift.toNat < 32) : (32 - shift).toNat = 32 - shift.toNat := by
  have h32 : (32 : BitVec 32).toNat = 32 := rfl
  rw [toNat_sub, h32]
  omega

theorem isLong_eq (hk : shift.toNat < 64) :
    iGreaterThanEqual (shift - 32) 0 true = decide (32 ≤ shift.toNat) := by
  have h32 : (32 : BitVec 32).toNat = 32 := rfl
  have hzero : (0 : BitVec 32).toInt = 0 := rfl
  rw [iGreaterThanEqual, if_pos rfl, hzero, toInt_eq_toNat_cond, toNat_sub, h32]
  refine decide_eq_decide.mpr ?_
  split <;> omega

theorem isZero_eq : iEqual shift 0 = decide (shift.toNat = 0) := rfl

/-- **A shift is a choice** by its amount: nothing, the short or the long result. The results that
are not chosen do not matter. -/
theorem shift_choice {zeroLo zeroHi shortLo shortHi longLo longHi : BitVec 32}
    {w : BitVec (32 + 32)} (hk : shift.toNat < 64) (hzero : shift.toNat = 0 → zeroHi ++ zeroLo = w)
    (hshort : shift.toNat < 32 → shortHi ++ shortLo = w)
    (hlong : 32 ≤ shift.toNat → longHi ++ longLo = w) :
    select (iEqual shift 0) zeroHi (select (iGreaterThanEqual (shift - 32) 0 true) longHi shortHi) ++
      select (iEqual shift 0) zeroLo
        (select (iGreaterThanEqual (shift - 32) 0 true) longLo shortLo) = w := by
  rw [isLong_eq hk, isZero_eq, select, select, select, select]
  by_cases hz : shift.toNat = 0
  · rw [decide_eq_true hz]
    exact hzero hz
  · rw [decide_eq_false hz]
    by_cases hl : 32 ≤ shift.toNat
    · rw [decide_eq_true hl]
      exact hlong hl
    · rw [decide_eq_false hl]
      exact hshort (by omega)

theorem shiftLeftLogical64To32_value (hk : shift.toNat < 64) :
    (shiftLeftLogical64To32 σ p shift).value = p.value <<< shift.toNat := by
  rw [← @unpack_value p, shiftLeftLogical64To32, Packed.value]
  generalize (unpack p).1 = lo, (unpack p).2 = hi
  refine shift_choice hk (fun hz => ?_) (fun hshort => ?_) fun hlong => ?_
  · rw [hz, shiftLeft_zero]
  · rw [Assignment.shiftLeft, Assignment.shiftLeft, if_pos hshort, if_pos hshort,
      Assignment.uExtract, toNat_32_sub hshort, if_pos (by omega)]
    exact short_left hshort
  · rw [Assignment.shiftLeft, toNat_sub_32 hlong, if_pos (by omega)]
    exact long_left hlong

theorem short_lower_half (hk : shift.toNat < 32) :
    σ.insert (σ.shiftRightLogical lo shift) (σ.uExtract hi 0 shift) (32 - shift) shift =
      fieldInsert (lo >>> shift.toNat) (fieldU hi 0 shift.toNat) (32 - shift.toNat) shift.toNat := by
  have hzero : (0 : BitVec 32).toNat = 0 := rfl
  rw [Assignment.insert, toNat_32_sub hk, if_pos (by omega), Assignment.shiftRightLogical,
    if_pos hk, Assignment.uExtract, hzero, if_pos (by omega)]

theorem shiftRightLogical64To32_value (hk : shift.toNat < 64) :
    (shiftRightLogical64To32 σ p shift).value = p.value >>> shift.toNat := by
  rw [← @unpack_value p, shiftRightLogical64To32, Packed.value]
  generalize (unpack p).1 = lo, (unpack p).2 = hi
  refine shift_choice hk (fun hz => ?_) (fun hshort => ?_) fun hlong => ?_
  · rw [hz, ushiftRight_zero]
  · rw [short_lower_half hshort, Assignment.shiftRightLogical, if_pos hshort]
    exact short_right hshort
  · rw [Assignment.shiftRightLogical, toNat_sub_32 hlong, if_pos (by omega)]
    exact long_right hlong

theorem shiftRightArithmetic64To32_value (hk : shift.toNat < 64) :
    (shiftRightArithmetic64To32 σ p shift).value = p.value.sshiftRight shift.toNat := by
  have hsign : (31 : BitVec 32).toNat = 31 := rfl
  rw [← @unpack_value p, shiftRightArithmetic64To32, Packed.value]
  generalize (unpack p).1 = lo, (unpack p).2 = hi
  refine shift_choice hk (fun hz => ?_) (fun hshort => ?_) fun hlong => ?_
  · rw [hz, sshiftRight_zero]
  · rw [short_lower_half hshort, Assignment.shiftRight, if_pos hshort]
    exact short_arithmetic hshort
  · rw [Assignment.shiftRight, hsign, if_pos (by decide), Assignment.shiftRight,
      toNat_sub_32 hlong, if_pos (by omega)]
    exact long_arithmetic hlong

end Halves

/-- **64-bit lowering is exact**: an instruction without pseudo-operations becomes two words that
are the halves of its value, whatever the target makes of the shifts that it leaves open. -/
theorem lower_exact (σ : Assignment) (inst : Inst64) (hinside : inst.ShiftsInside) :
    ∃ lo hi, lower σ false inst = some (.composite lo hi) ∧ hi ++ lo = inst.value := by
  cases inst with
  | iAdd64 a b => exact ⟨_, _, rfl, iAdd64To32_value⟩
  | iSub64 a b => exact ⟨_, _, rfl, iSub64To32_value⟩
  | iNeg64 a => exact ⟨_, _, rfl, iNeg64To32_value⟩
  | shiftLeftLogical64 base shift => exact ⟨_, _, rfl, shiftLeftLogical64To32_value hinside⟩
  | shiftRightLogical64 base shift => exact ⟨_, _, rfl, shiftRightLogical64To32_value hinside⟩
  | shiftRightArithmetic64 base shift =>
    exact ⟨_, _, rfl, shiftRightArithmetic64To32_value hinside⟩

/-- The sign moves through all 63 places, on a target that answers open shifts with ones. -/
theorem lower_exact_sign : ∃ lo hi,
    lower ⟨fun _ _ => .u1 false, fun _ _ => 0, fun _ _ => 0, fun _ _ => 0xFFFFFFFF⟩ false
      (.shiftRightArithmetic64 (.imm 0x8000000000000000) 63) = some (.composite lo hi) ∧
    (Packed.composite lo hi).value = 0xFFFFFFFFFFFFFFFF := by
  obtain ⟨lo, hi, hlower, hvalue⟩ := lower_exact
    ⟨fun _ _ => .u1 false, fun _ _ => 0, fun _ _ => 0, fun _ _ => 0xFFFFFFFF⟩
    (.shiftRightArithmetic64 (.imm 0x8000000000000000) 63) (by unfold Inst64.ShiftsInside; decide)
  exact ⟨lo, hi, hlower, hvalue.trans (by decide)⟩

end Yuzu.Shader
