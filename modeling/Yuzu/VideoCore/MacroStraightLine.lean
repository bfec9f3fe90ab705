/-
  File:      Yuzu/VideoCore/MacroStraightLine.lean
  Subject:   The calls that the interpreter and the compiled code make for a macro without branches.

  The compiler takes shortcuts, each of which is right for some operands only: it skips the code for
  a register 0, it has special cases for small immediates, it leaves out a method move that the next
  instruction repeats, and it keeps the carry as x64 has it, where a subtraction sets it when it
  borrows. Its code for the increment of the method address lets a carry into the increment.

  Section 1 says for which instructions and which states a shortcut is right. Where all of them are,
  the registers, the method address, the parameters and the calls of the two agree before each
  instruction, except for the register and the method address of a move that was left out.
-/
import Yuzu.Lib.Word
import Yuzu.VideoCore.MacroControl

namespace Yuzu.VideoCore.Macro

/-! ## 1. When the shortcuts are right -/

namespace Opcode

/-- Whether the result of the operation goes anywhere. -/
def usesResult (opcode : Opcode) : Bool :=
  match opcode.resultOperation with
  | .ignoreAndFetch => false
  | .move => opcode.dst != 0
  | _ => true

/-- The registers that the operation reads. -/
def sources (opcode : Opcode) : List (BitVec 3) :=
  match opcode.operation with
  | .addImmediate | .read => [opcode.srcA]
  | .unused | .branch => []
  | _ => [opcode.srcA, opcode.srcB]

/-- Skipping a register 0 keeps the result: RESULT holds the first operand only where it was
    loaded, and the operation may be left out only where 0 is its neutral second operand. -/
def zeroRegisterRight (opcode : Opcode) : Bool :=
  opcode.operation != .alu || !opcode.usesResult ||
    match opcode.aluOperation with
    | .addWithCarry | .subtractWithBorrow => true
    | .add | .subtract | .xor | .or => opcode.srcA != 0
    | _ => opcode.srcA != 0 && opcode.srcB != 0

/-- The immediate 2 is not added to a register. -/
def immediateRight (opcode : Opcode) : Bool :=
  !(opcode.operation == .addImmediate || opcode.operation == .read) || !opcode.usesResult ||
    opcode.srcA == 0 || opcode.immediate != 2

/-- Whether a parameter is fetched. -/
def fetches (opcode : Opcode) : Bool :=
  match opcode.operation, opcode.resultOperation with
  | .unused, _ | .branch, _ => false
  | _, .ignoreAndFetch | _, .fetchAndSend | _, .fetchAndSetMethod
  | _, .moveAndSetMethodFetchAndSend => true
  | _, _ => false

/-- Whether the operation shifts by a register. -/
def shiftsByRegister (opcode : Opcode) : Bool :=
  opcode.operation == .extractShiftLeftImmediate || opcode.operation == .extractShiftLeftRegister

end Opcode

/-- What the compiled code's carry flag says of the interpreter's. -/
inductive CarrySense where
  /-- The carry of a sum: the flags are equal. -/
  | sum
  /-- The borrow of a difference: the flags are opposite. -/
  | difference
  /-- A subtraction with a register 0 did not set it. -/
  | lost
  deriving DecidableEq, Repr

/-- The sense after an instruction. -/
def CarrySense.after (opcode : Opcode) (sense : CarrySense) : CarrySense :=
  if opcode.operation = .alu then
    match opcode.aluOperation with
    | .add | .addWithCarry => .sum
    | .subtract => if opcode.srcA ≠ 0 ∧ opcode.srcB ≠ 0 then .difference else .lost
    | .subtractWithBorrow => .difference
    | _ => sense
  else sense

/-- An instruction that uses the carry finds it in the sense it takes it in. -/
def CarrySense.right (opcode : Opcode) (sense : CarrySense) : Bool :=
  opcode.operation != .alu ||
    match opcode.aluOperation with
    | .addWithCarry => sense == .sum
    | .subtractWithBorrow => sense == .difference
    | _ => true

/-- The sense before an instruction; both flags are clear at the start. -/
def carrySense (code : List Opcode) (pc : Nat) : CarrySense :=
  (code.take pc).foldl (fun sense opcode => sense.after opcode) .sum

/-- Whether the code of an instruction is left out as a redundant method move. -/
def leftOut (nextOpcode : Option Opcode) (opcode : Opcode) : Bool :=
  opcode.operation == .addImmediate && opcode.resultOperation == .moveAndSetMethod &&
    nextOpcode.any fun next =>
      next.resultOperation == .moveAndSetMethod && opcode.dst == next.dst

/-- **Each shortcut of the compiler is right where it is taken**. -/
structure ShortcutsRight (code : List Opcode) : Prop where
  zeroRegister : ∀ pc, (h : pc < code.length) → code[pc].zeroRegisterRight = true
  immediate : ∀ pc, (h : pc < code.length) → code[pc].immediateRight = true
  carry : ∀ pc, (h : pc < code.length) → (carrySense code pc).right code[pc] = true
  /-- The instruction that repeats a method move moves, and does not read its register. -/
  methodMove : ∀ pc, (h : pc < code.length) → (h' : pc + 1 < code.length) →
    leftOut code[pc + 1]? code[pc] = true → leftOut code[pc + 2]? code[pc + 1] = false →
    code[pc + 1].operation ≠ .unused ∧ (code[pc].dst = 0 ∨ code[pc].dst ∉ code[pc + 1].sources)

/-- The compiled code increments a method address as the interpreter does: the sum stays below
    2^12, or the bit that the carry goes to is set anyway. -/
def IncrementRight (raw : BitVec 32) : Prop :=
  (methodOf raw).toNat + (incrementOf raw).toNat < 2 ^ 12 ∨ (incrementOf raw).toNat % 2 = 1

instance (raw : BitVec 32) : Decidable (IncrementRight raw) :=
  inferInstanceAs (Decidable (_ ∨ _))

/-- The method address that an instruction sends to, if it sends. -/
def sendAddress (env : Env) (opcode : Opcode) (d : InterpreterData) : Option (BitVec 32) :=
  match opcode.operation, opcode.resultOperation with
  | .unused, _ | .branch, _ => none
  | _, .fetchAndSend | _, .moveAndSend => some d.methodAddress
  | _, .moveAndSetMethodFetchAndSend | _, .moveAndSetMethodSend => some (d.result env opcode)
  | _, _ => none

/-- The interpreter's data before an instruction of a macro without branches. -/
def dataAt (env : Env) (pc : Nat) : InterpreterData :=
  (env.code.take pc).foldl (fun d opcode => d.operate env opcode) (.init env)

/-- **The macros in question**: no branches, named operations, one exit at the second to last
    instruction, parameters for every fetch, and shifts by less than 32. -/
structure StraightLine (env : Env) : Prop where
  length : 2 ≤ env.code.length
  operation : ∀ pc, (h : pc < env.code.length) → env.code[pc].operation ≠ .branch ∧
    (env.code[pc].operation = .alu → env.code[pc].aluOperation ≠ .invalid)
  exit : ∀ pc, (h : pc < env.code.length) → (env.code[pc].isExit = true ↔ pc + 2 = env.code.length)
  params : 1 + env.code.countP Opcode.fetches ≤ env.params.length
  shift : ∀ pc, (h : pc < env.code.length) → env.code[pc].shiftsByRegister = true →
    ((dataAt env pc).registers env.code[pc].srcA).toNat < 32

/-! ## 2. Arithmetic -/

section Arithmetic

variable (a b : BitVec 32) (c : Bool)

open InterpreterData

theorem aluResult_add : aluResult .add a b c = a + b := by
  simp only [aluResult]
  bv_omega

theorem aluResult_addWithCarry : aluResult .addWithCarry a b c = a + b + (if c then 1 else 0) := by
  cases c <;> simp only [aluResult, reduceIte, Bool.false_eq_true]
  all_goals bv_omega

theorem aluResult_subtract : aluResult .subtract a b c = a - b := by
  simp only [aluResult]
  bv_omega

theorem aluResult_subtractWithBorrow :
    aluResult .subtractWithBorrow a b c = a - b - (if !c then 1 else 0) := by
  cases c <;> simp only [aluResult, reduceIte, Bool.not_true, Bool.not_false, Bool.false_eq_true]
  all_goals bv_omega

theorem aluCarry_add : aluCarry .add a b c = decide (2 ^ 32 ≤ a.toNat + b.toNat) := by
  simp only [aluCarry, decide_eq_decide]
  bv_omega

theorem aluCarry_addWithCarry : aluCarry .addWithCarry a b c =
    decide (2 ^ 32 ≤ a.toNat + b.toNat + (if c then 1 else 0)) := by
  cases c <;> simp only [aluCarry, decide_eq_decide, reduceIte, Bool.false_eq_true]
  all_goals bv_omega

theorem aluCarry_subtract : aluCarry .subtract a b c = !decide (a.toNat < b.toNat) := by
  rw [← decide_not]
  simp only [aluCarry, decide_eq_decide]
  bv_omega

theorem aluCarry_subtractWithBorrow : aluCarry .subtractWithBorrow a b c =
    !decide (a.toNat < b.toNat + (if !c then 1 else 0)) := by
  rw [← decide_not]
  cases c <;> simp only [aluCarry, decide_eq_decide, reduceIte, Bool.not_true, Bool.not_false,
    Bool.false_eq_true]
  all_goals bv_omega

end Arithmetic

section MethodAddress

variable (m : BitVec 32)

theorem toNat_methodOf : (methodOf m).toNat = m.toNat % 2 ^ 12 := by
  simp [methodOf]

theorem toNat_incrementOf : (incrementOf m).toNat = m.toNat / 2 ^ 12 % 2 ^ 6 := by
  simp [incrementOf, Nat.shiftRight_eq_div_pow]

/-- The method address after the code behind a call. -/
def incremented : BitVec 32 :=
  if m &&& 0x3f000#32 = 0 then m
  else (m >>> 12 &&& 0x3f#32) + (m &&& 0xfff#32) ||| (m >>> 12 &&& 0x3f#32) <<< 12

theorem toNat_and_fff : (m &&& 0xfff#32).toNat = m.toNat % 2 ^ 12 := by
  rw [BitVec.toNat_and]
  exact Nat.and_two_pow_sub_one_eq_mod _ 12

theorem toNat_increment : (m >>> 12 &&& 0x3f#32).toNat = m.toNat / 2 ^ 12 % 2 ^ 6 := by
  rw [BitVec.toNat_and, BitVec.toNat_ushiftRight, Nat.shiftRight_eq_div_pow]
  exact Nat.and_two_pow_sub_one_eq_mod _ 6

theorem and_field (count shift : Nat) (hc : count < 32) :
    m &&& (1#32 <<< count - 1) <<< shift = (m >>> shift &&& (1#32 <<< count - 1)) <<< shift := by
  refine BitVec.eq_of_getLsbD_eq fun j hj => ?_
  have hmask := @getLsbD_mask 32 (j - shift) _ 0 hc
  rw [BitVec.shiftLeft_zero] at hmask
  rw [BitVec.getLsbD_and, getLsbD_mask hc, BitVec.getLsbD_shiftLeft, BitVec.getLsbD_and, hmask,
    BitVec.getLsbD_ushiftRight]
  by_cases hs : shift ≤ j
  · rw [show shift + (j - shift) = j by omega]
    simp only [hs, hj, Nat.not_lt.mpr hs, show j - shift < 32 by omega, true_and, and_true,
      decide_true, decide_false, Bool.not_false, Bool.true_and, Nat.zero_le, Nat.zero_add]
    congr 2
    exact propext (by omega)
  · simp [hs, Nat.lt_of_not_le hs]

theorem and_3f000_eq_zero : m &&& 0x3f000#32 = 0 ↔ m.toNat / 2 ^ 12 % 2 ^ 6 = 0 := by
  have hshift : m &&& 0x3f000#32 = (m >>> 12 &&& 0x3f#32) <<< 12 := and_field m 6 12 (by decide)
  rw [hshift, ← BitVec.toNat_inj, BitVec.toNat_shiftLeft, toNat_increment, Nat.shiftLeft_eq]
  simp only [BitVec.ofNat_eq_ofNat, BitVec.toNat_ofNat]
  omega

/-- A sum over a field of 12 bits, its carry going to a bit that is set anyway. -/
theorem or_shiftLeft_eq {sum inc : Nat} (hsum : sum < 2 ^ 13)
    (h : sum < 2 ^ 12 ∨ inc % 2 = 1) : sum ||| inc <<< 12 = 2 ^ 12 * inc + sum % 2 ^ 12 := by
  apply Nat.eq_of_testBit_eq
  intro i
  have hsplit : sum = 2 ^ 12 * (sum / 2 ^ 12) + sum % 2 ^ 12 := by omega
  have hlt : sum % 2 ^ 12 < 2 ^ 12 := Nat.mod_lt _ (by decide)
  rw [Nat.testBit_or, Nat.testBit_two_pow_mul_add _ hlt, Nat.testBit_shiftLeft]
  nth_rewrite 1 [hsplit]
  rw [Nat.testBit_two_pow_mul_add _ hlt]
  by_cases hi : i < 12
  · simp [hi]
  · simp only [hi, ↓reduceIte, show i ≥ 12 by omega, decide_true, Bool.true_and]
    -- The carry out of the field is 0 or 1.
    have hq : sum / 2 ^ 12 = 0 ∨ sum / 2 ^ 12 = 1 ∧ inc % 2 = 1 := by omega
    rcases hq with hq | ⟨hq, hodd⟩
    · rw [hq]
      simp
    · rw [hq]
      rcases Nat.eq_zero_or_pos (i - 12) with hk | hk
      · simp [hk, Nat.testBit_zero, hodd]
      · simp [Nat.testBit_one_eq_true_iff_self_eq_zero, hk.ne']

theorem toNat_assignMethod (x : BitVec 12) :
    (assignMethod m x).toNat = 2 ^ 12 * (m.toNat / 2 ^ 12) + x.toNat := by
  have hx := x.isLt
  have hm := m.isLt
  have hshift : m &&& 0xfffff000#32 = (m >>> 12 &&& 0xfffff#32) <<< 12 := and_field m 20 12 (by decide)
  have hhigh : (m &&& 0xfffff000#32).toNat = (m.toNat / 2 ^ 12) <<< 12 := by
    rw [hshift, BitVec.toNat_shiftLeft, BitVec.toNat_and, BitVec.toNat_ushiftRight,
      Nat.shiftRight_eq_div_pow, show (0xfffff#32).toNat = 2 ^ 20 - 1 from rfl,
      Nat.and_two_pow_sub_one_eq_mod, Nat.shiftLeft_eq, Nat.shiftLeft_eq]
    omega
  rw [assignMethod, BitVec.toNat_or, hhigh, BitVec.toNat_setWidth, Nat.mod_eq_of_lt (by omega),
    ← Nat.shiftLeft_add_eq_or_of_lt hx, Nat.shiftLeft_eq]
  omega

theorem toNat_incremented (h : IncrementRight m) :
    (incremented m).toNat % 2 ^ 18 = 2 ^ 12 * (m.toNat / 2 ^ 12 % 2 ^ 6) +
      (m.toNat % 2 ^ 12 + m.toNat / 2 ^ 12 % 2 ^ 6) % 2 ^ 12 := by
  rw [IncrementRight, toNat_methodOf, toNat_incrementOf] at h
  rw [incremented]
  split
  · rename_i hz
    rw [and_3f000_eq_zero] at hz
    omega
  · have hsum : ((m >>> 12 &&& 0x3f#32) + (m &&& 0xfff#32)).toNat =
        m.toNat % 2 ^ 12 + m.toNat / 2 ^ 12 % 2 ^ 6 := by
      rw [BitVec.toNat_add, toNat_increment, toNat_and_fff]
      omega
    have hshift : ((m >>> 12 &&& 0x3f#32) <<< 12).toNat = (m.toNat / 2 ^ 12 % 2 ^ 6) <<< 12 := by
      rw [BitVec.toNat_shiftLeft, toNat_increment, Nat.shiftLeft_eq]
      omega
    rw [BitVec.toNat_or, hsum, hshift]
    have hinc : m.toNat / 2 ^ 12 % 2 ^ 6 < 2 ^ 6 := Nat.mod_lt _ (by decide)
    have haddr : m.toNat % 2 ^ 12 < 2 ^ 12 := Nat.mod_lt _ (by decide)
    generalize m.toNat / 2 ^ 12 % 2 ^ 6 = inc at h hinc ⊢
    rw [or_shiftLeft_eq (by omega) h]
    omega

/-- **The increment of the method address**: the two agree in the 18 bits that are used. -/
theorem incremented_eq {m m' : BitVec 32} (hm : m.setWidth 18 = m'.setWidth 18)
    (h : IncrementRight m) : (incremented m').setWidth 18 =
      (assignMethod m (methodOf m + (incrementOf m).setWidth 12)).setWidth 18 := by
  have hnat : m.toNat % 2 ^ 18 = m'.toNat % 2 ^ 18 := by simpa using congrArg BitVec.toNat hm
  have h' : IncrementRight m' := by
    rw [IncrementRight, toNat_methodOf, toNat_incrementOf] at h ⊢
    omega
  rw [← BitVec.toNat_inj, BitVec.toNat_setWidth, BitVec.toNat_setWidth, toNat_incremented m' h',
    toNat_assignMethod, BitVec.toNat_add, BitVec.toNat_setWidth, toNat_methodOf, toNat_incrementOf,
    show m'.toNat / 2 ^ 12 % 2 ^ 6 = m.toNat / 2 ^ 12 % 2 ^ 6 by omega,
    show m'.toNat % 2 ^ 12 = m.toNat % 2 ^ 12 by omega,
    Nat.mod_eq_of_lt (show m.toNat / 2 ^ 12 % 2 ^ 6 < 2 ^ 12 by omega)]
  have hlt : (m.toNat % 2 ^ 12 + m.toNat / 2 ^ 12 % 2 ^ 6) % 2 ^ 12 < 2 ^ 12 :=
    Nat.mod_lt _ (by decide)
  generalize (m.toNat % 2 ^ 12 + m.toNat / 2 ^ 12 % 2 ^ 6) % 2 ^ 12 = x at hlt ⊢
  omega

end MethodAddress

/-! ## 3. The compiled operations -/

/-- A run of computing instructions. -/
def execs (env : Env) (native : Native) (is : List Instr) (j : JitData) : JitData :=
  is.foldl (fun j i => j.exec env native i) j

section Execs

variable (env : Env) (native : Native) (j : JitData)

@[simp] theorem execs_nil : execs env native [] j = j := rfl

@[simp] theorem execs_cons (i : Instr) (is : List Instr) :
    execs env native (i :: is) j = execs env native is (j.exec env native i) := rfl

theorem execs_append (is is' : List Instr) :
    execs env native (is ++ is') j = execs env native is' (execs env native is j) :=
  List.foldl_append

end Execs

/-- What no operation changes before its result is processed. -/
structure SameState (j j' : JitData) : Prop where
  registers : j'.registers = j.registers
  parameter : j'.parameter = j.parameter
  calls : j'.calls = j.calls
  method : j'.regs .methodAddress = j.regs .methodAddress

/-- The instructions that only compute in RESULT, eax, ecx and the flags. -/
def Instr.computes : Instr → Bool
  | .mov dst _ | .load dst _ | .add dst _ | .adc dst _ | .sub dst _ | .sbb dst _ | .xor dst _
  | .or dst _ | .and dst _ | .not dst | .inc dst | .shr dst _ | .shl dst _ | .shrCl dst
  | .shlCl dst | .lea dst _ _ => dst != .methodAddress
  | .test _ _ | .setc | .bt | .movMaxwell3d | .movRegArray => true
  | .store _ _ | .callSend _ | .fetchParameter | .processMethodAddress => false

section Computes

variable {env : Env} {native : Native} {j : JitData}

theorem SameState.setReg {r : Reg32} (hr : (r != .methodAddress) = true) (v : BitVec 32) :
    SameState j (j.setReg r v) := by
  refine ⟨rfl, rfl, rfl, ?_⟩
  exact Function.update_of_ne (by rintro rfl; simp at hr) _ _

theorem SameState.setFlags {j' : JitData} (h : SameState j j') (cf zf : Bool) :
    SameState j (j'.setFlags cf zf) := ⟨h.registers, h.parameter, h.calls, h.method⟩

theorem SameState.shiftRight {r : Reg32} (hr : (r != .methodAddress) = true) (n : Nat) :
    SameState j (j.shiftRight r n) := by
  unfold JitData.shiftRight
  split
  · exact ⟨rfl, rfl, rfl, rfl⟩
  · exact (SameState.setReg hr _).setFlags _ _

theorem SameState.shiftLeft {r : Reg32} (hr : (r != .methodAddress) = true) (n : Nat) :
    SameState j (j.shiftLeft r n) := by
  unfold JitData.shiftLeft
  split
  · exact ⟨rfl, rfl, rfl, rfl⟩
  · exact (SameState.setReg hr _).setFlags _ _

theorem SameState.exec {i : Instr} (h : i.computes = true) : SameState j (j.exec env native i) := by
  cases i with
  | shr dst n => exact .shiftRight h _
  | shrCl dst => exact .shiftRight h _
  | shl dst n => exact .shiftLeft h _
  | shlCl dst => exact .shiftLeft h _
  | test dst v => exact ⟨rfl, rfl, rfl, rfl⟩
  | setc => exact ⟨rfl, rfl, rfl, rfl⟩
  | bt => exact ⟨rfl, rfl, rfl, rfl⟩
  | store i r => exact absurd h (by simp [Instr.computes])
  | callSend r => exact absurd h (by simp [Instr.computes])
  | fetchParameter => exact absurd h (by simp [Instr.computes])
  | processMethodAddress => exact absurd h (by simp [Instr.computes])
  | movMaxwell3d => exact .setReg rfl _
  | movRegArray => exact .setReg rfl _
  | mov dst src => exact .setReg h _
  | load dst index => exact .setReg h _
  | not dst => exact .setReg h _
  | lea dst base index => exact .setReg h _
  | _ => exact (SameState.setReg h _).setFlags _ _

theorem SameState.execs {is : List Instr} (h : ∀ i ∈ is, i.computes = true) :
    SameState j (execs env native is j) := by
  induction is generalizing j with
  | nil => exact ⟨rfl, rfl, rfl, rfl⟩
  | cons i is ih =>
    have h1 : SameState j (j.exec env native i) := .exec (h i List.mem_cons_self)
    have h2 : SameState (j.exec env native i) (Macro.execs env native is _) :=
      ih fun i hi => h i (List.mem_cons_of_mem _ hi)
    exact ⟨h2.registers.trans h1.registers, h2.parameter.trans h1.parameter,
      h2.calls.trans h1.calls, h2.method.trans h1.method⟩

end Computes

/-- What a source register has as the compiled code reads it. -/
def JitData.source (j : JitData) (r : BitVec 3) : BitVec 32 := if r = 0 then 0 else j.registers r

/-- The code of an operation, without what is done with its result. -/
def computeInstrs (optimizer : OptimizerState) (opcode : Opcode) : List Instr :=
  match opcode.operation with
  | .alu => compileALUSources optimizer opcode ++ compileALUOperation optimizer opcode
  | .addImmediate => compileImmediate optimizer opcode
  | .extractInsert =>
    compileGetRegister opcode.srcA .result ++ compileGetRegister opcode.srcB .eax ++
      [Instr.and .result (.imm (~~~(opcode.getBitfieldMask <<< opcode.bfDstBit))),
        .shr .eax opcode.bfSrcBit,
        .and .eax (.imm opcode.getBitfieldMask),
        .shl .eax opcode.bfDstBit,
        .or .result (.reg .eax)]
  | .extractShiftLeftImmediate =>
    compileGetRegister opcode.srcA .ecx ++ compileGetRegister opcode.srcB .result ++ [Instr.shrCl .result,
        .and .result (.imm opcode.getBitfieldMask),
        .shl .result opcode.bfDstBit]
  | .extractShiftLeftRegister =>
    compileGetRegister opcode.srcA .ecx ++ compileGetRegister opcode.srcB .result ++
      [Instr.shr .result opcode.bfSrcBit, .and .result (.imm opcode.getBitfieldMask), .shlCl .result]
  | .read => compileImmediate optimizer opcode ++ [.movMaxwell3d, .movRegArray]
  | .unused | .branch => []

section Compute

variable {code : List Opcode} {opcode : Opcode}

theorem compileInstrs_eq (nextOpcode : Option Opcode) (hunused : opcode.operation ≠ .unused)
    (hbranch : opcode.operation ≠ .branch)
    (hdummy : ¬ (opcode.operation = .addImmediate ∧ opcode.resultOperation = .move ∧ opcode.dst = 0))
    (hleft : leftOut nextOpcode opcode = false) :
    compileInstrs (scanFlags code) nextOpcode opcode = computeInstrs (scanFlags code) opcode ++
        compileProcessResult opcode.resultOperation opcode.dst := by
  cases hop : opcode.operation with
  | unused => exact absurd hop hunused
  | branch => exact absurd hop hbranch
  | addImmediate =>
    simp only [compileInstrs, computeInstrs, hop, compileAddImmediate]
    have h1 : ¬ (opcode.resultOperation = .move ∧ opcode.dst = 0) := fun h => hdummy ⟨hop, h⟩
    have h2 : redundantMove (scanFlags code) nextOpcode opcode = false := by
      simpa [leftOut, hop, redundantMove, scanFlags] using hleft
    rw [if_neg (by simpa [scanFlags] using h1), if_neg (by simp [h2])]
  | _ => simp only [compileInstrs, computeInstrs, hop, compileALU, compileExtractInsert,
      compileExtractShiftLeftImmediate, compileExtractShiftLeftRegister, compileRead]

theorem computes_getRegister (r : BitVec 3) {dst : Reg32} (h : (dst != .methodAddress) = true) :
    ∀ i ∈ compileGetRegister r dst, i.computes = true := by
  unfold compileGetRegister
  split <;> simpa [Instr.computes] using h

theorem computes_append {is is' : List Instr} (h : ∀ i ∈ is, i.computes = true)
    (h' : ∀ i ∈ is', i.computes = true) : ∀ i ∈ is ++ is', i.computes = true := by
  intro i hi
  rcases List.mem_append.mp hi with hi | hi
  · exact h i hi
  · exact h' i hi

theorem computes_aluSources (optimizer : OptimizerState) :
    ∀ i ∈ compileALUSources optimizer opcode, i.computes = true := by
  unfold compileALUSources
  dsimp only
  split
  · exact computes_append (computes_getRegister _ rfl) (computes_getRegister _ rfl)
  · refine computes_append ?_ ?_
    · split
      · exact computes_getRegister _ rfl
      · simp
    · split
      · exact computes_getRegister _ rfl
      · simp

theorem computes_aluOperation (optimizer : OptimizerState) :
    ∀ i ∈ compileALUOperation optimizer opcode, i.computes = true := by
  unfold compileALUOperation
  dsimp only
  split <;> (try split) <;> (try split) <;> simp [Instr.computes]

theorem computes_immediate (optimizer : OptimizerState) :
    ∀ i ∈ compileImmediate optimizer opcode, i.computes = true := by
  unfold compileImmediate
  split
  · split <;> simp [Instr.computes]
  · refine computes_append (computes_getRegister _ rfl) ?_
    split
    · simp [Instr.computes]
    · split
      · simp [Instr.computes]
      · split <;> simp [Instr.computes]

theorem computes_computeInstrs (optimizer : OptimizerState) :
    ∀ i ∈ computeInstrs optimizer opcode, i.computes = true := by
  unfold computeInstrs
  split
  · exact computes_append (computes_aluSources optimizer) (computes_aluOperation optimizer)
  · exact computes_immediate optimizer
  · exact computes_append (computes_append (computes_getRegister _ rfl)
      (computes_getRegister _ rfl)) (by simp [Instr.computes])
  · exact computes_append (computes_append (computes_getRegister _ rfl)
      (computes_getRegister _ rfl)) (by simp [Instr.computes])
  · exact computes_append (computes_append (computes_getRegister _ rfl)
      (computes_getRegister _ rfl)) (by simp [Instr.computes])
  · exact computes_append (computes_immediate optimizer) (by simp [Instr.computes])
  · simp
  · simp

variable (env : Env) (native : Native) (j : JitData)

theorem execs_getRegister (r : BitVec 3) (dst : Reg32) :
    ∃ cf zf, execs env native (compileGetRegister r dst) j =
      (j.setReg dst (j.source r)).setFlags cf zf := by
  unfold compileGetRegister JitData.source
  split
  · refine ⟨false, true, ?_⟩
    simp [JitData.exec, JitData.execBasic, JitData.arith, JitData.operand]
  · exact ⟨j.cf, j.zf, rfl⟩

theorem execs_getRegisters (r r' : BitVec 3) (dst dst' : Reg32) :
    ∃ cf zf, execs env native (compileGetRegister r dst ++ compileGetRegister r' dst') j =
      ((j.setReg dst (j.source r)).setReg dst' (j.source r')).setFlags cf zf := by
  obtain ⟨cf, zf, h1⟩ := execs_getRegister env native j r dst
  obtain ⟨cf', zf', h2⟩ := execs_getRegister env native ((j.setReg dst (j.source r)).setFlags cf zf) r' dst'
  rw [execs_append, h1, h2]
  exact ⟨cf', zf', rfl⟩

/-! ### The ALU -/

/-- Whether both operands are loaded and the operation is emitted. -/
def Opcode.full (opcode : Opcode) : Prop :=
  opcode.aluOperation = .addWithCarry ∨ opcode.aluOperation = .subtractWithBorrow ∨
    opcode.srcA ≠ 0 ∧ opcode.srcB ≠ 0

theorem compileALUSources_full (h : opcode.full) : compileALUSources (scanFlags code) opcode =
    compileGetRegister opcode.srcA .result ++ compileGetRegister opcode.srcB .eax := by
  unfold compileALUSources
  rcases h with h | h | ⟨ha, hb⟩
  · simp [h]
  · simp [h]
  · dsimp only
    split <;> rfl

/-- The carry flag of the compiled code after an operation. -/
def jitCarry (operation : ALUOperation) (a b : BitVec 32) (carryFlag : Bool) : Bool :=
  match operation with
  | .add | .addWithCarry => InterpreterData.aluCarry operation a b carryFlag
  | .subtract | .subtractWithBorrow => !InterpreterData.aluCarry operation a b !carryFlag
  | _ => carryFlag

theorem Opcode.full.compileALUOperation (h : opcode.full) : compileALUOperation (scanFlags code) opcode =
      match opcode.aluOperation with
      | .add => .add .result (.reg .eax) :: if !(scanFlags code).canSkipCarry then [.setc] else []
      | .addWithCarry => [.bt, .adc .result (.reg .eax), .setc]
      | .subtract =>
        .sub .result (.reg .eax) :: if !(scanFlags code).canSkipCarry then [.setc] else []
      | .subtractWithBorrow => [.bt, .sbb .result (.reg .eax), .setc]
      | .xor => [.xor .result (.reg .eax)]
      | .or => [.or .result (.reg .eax)]
      | .and => [.and .result (.reg .eax)]
      | .andNot => [.not .eax, .and .result (.reg .eax)]
      | .nand => [.and .result (.reg .eax), .not .result]
      | .invalid => [] := by
  unfold Macro.compileALUOperation
  rcases h with h | h | ⟨ha, hb⟩
  · rw [h]
  · rw [h]
  · have ha' : (opcode.srcA == 0) = false := by simpa using ha
    have hb' : (opcode.srcB == 0) = false := by simpa using hb
    cases opcode.aluOperation <;>
      simp only [ha', hb', Bool.or_self, Bool.not_false, Bool.and_self, Bool.or_true,
        Bool.and_true, ↓reduceIte, List.singleton_append]

/-- **The operations of the ALU with both operands loaded**: the result, where the carry flag is
    kept in the sense of the operation. -/
theorem execs_alu_result (h : opcode.full) (hvalid : opcode.aluOperation ≠ .invalid) :
    (execs env native (compileALUSources (scanFlags code) opcode ++
        compileALUOperation (scanFlags code) opcode) j).regs .result =
      InterpreterData.aluResult opcode.aluOperation (j.source opcode.srcA) (j.source opcode.srcB)
        (if opcode.aluOperation = .subtractWithBorrow then !j.carryFlag else j.carryFlag) := by
  obtain ⟨cf, zf, hs⟩ := execs_getRegisters env native j opcode.srcA opcode.srcB .result .eax
  rw [execs_append, compileALUSources_full h, hs, h.compileALUOperation]
  generalize j.source opcode.srcA = a, j.source opcode.srcB = b
  cases hop : opcode.aluOperation with
  | invalid => exact absurd hop hvalid
  | add =>
    rw [aluResult_add]
    cases (scanFlags code).canSkipCarry <;> rfl
  | subtract =>
    rw [aluResult_subtract]
    cases (scanFlags code).canSkipCarry <;> rfl
  | addWithCarry =>
    rw [aluResult_addWithCarry]
    rfl
  | subtractWithBorrow =>
    rw [aluResult_subtractWithBorrow, if_pos rfl, Bool.not_not]
    rfl
  | _ => rfl

/-- The carry flag after an operation with both operands loaded. -/
theorem execs_alu_carry (h : opcode.full) (hskip : (scanFlags code).canSkipCarry = false) :
    (execs env native (compileALUSources (scanFlags code) opcode ++
        compileALUOperation (scanFlags code) opcode) j).carryFlag =
      jitCarry opcode.aluOperation (j.source opcode.srcA) (j.source opcode.srcB)
        j.carryFlag := by
  obtain ⟨cf, zf, hs⟩ := execs_getRegisters env native j opcode.srcA opcode.srcB .result .eax
  rw [execs_append, compileALUSources_full h, hs, h.compileALUOperation, hskip]
  generalize j.source opcode.srcA = a, j.source opcode.srcB = b
  cases hop : opcode.aluOperation with
  | add =>
    rw [jitCarry, aluCarry_add]
    rfl
  | subtract =>
    rw [jitCarry, aluCarry_subtract, Bool.not_not]
    rfl
  | addWithCarry =>
    rw [jitCarry, aluCarry_addWithCarry]
    rfl
  | subtractWithBorrow =>
    rw [jitCarry, aluCarry_subtractWithBorrow, Bool.not_not, Bool.not_not]
    rfl
  | _ => rfl

/-- Without both operands only registers are loaded, so the flags stay. -/
theorem execs_aluSources_upTo (h : ¬ opcode.full) :
    ∃ regs, execs env native (compileALUSources (scanFlags code) opcode) j = { j with regs := regs } ∧
      (opcode.srcA ≠ 0 → regs .result = j.registers opcode.srcA) := by
  simp only [Opcode.full, not_or] at h
  obtain ⟨h1, h2, h3⟩ := h
  have hskip : (!(scanFlags code).zeroRegSkip || (opcode.aluOperation == .addWithCarry ||
      opcode.aluOperation == .subtractWithBorrow)) = false := by
    simp [scanFlags, h1, h2]
  unfold compileALUSources
  dsimp only
  rw [hskip, if_neg Bool.false_ne_true]
  by_cases ha : opcode.srcA = 0
  · rw [if_neg (not_not.mpr ha), List.nil_append]
    by_cases hb : opcode.srcB = 0
    · rw [if_neg (not_not.mpr hb)]
      exact ⟨j.regs, rfl, fun h => absurd ha h⟩
    · rw [if_pos hb, compileGetRegister, if_neg hb]
      exact ⟨_, rfl, fun h => absurd ha h⟩
  · have hb : opcode.srcB = 0 := by
      by_contra hb
      exact h3 ⟨ha, hb⟩
    rw [if_pos ha, if_neg (not_not.mpr hb), List.append_nil, compileGetRegister, if_neg ha]
    exact ⟨_, rfl, fun _ => by simp⟩

theorem emitted_upTo (h : ¬ opcode.full) :
    (!(scanFlags code).zeroRegSkip || !(opcode.srcA == 0) && !(opcode.srcB == 0)) = false := by
  by_cases ha : opcode.srcA = 0
  · simp [scanFlags, ha]
  · by_cases hb : opcode.srcB = 0
    · simp [scanFlags, hb]
    · exact absurd (.inr (.inr ⟨ha, hb⟩)) h

/-- **A skipped operation of the ALU**: right where 0 is neutral as the second operand. -/
theorem execs_alu_result_partial (h : ¬ opcode.full) (ha : opcode.srcA ≠ 0)
    (hop : opcode.aluOperation = .add ∨ opcode.aluOperation = .subtract ∨
      opcode.aluOperation = .xor ∨ opcode.aluOperation = .or) (c : Bool) :
    (execs env native (compileALUSources (scanFlags code) opcode ++
        compileALUOperation (scanFlags code) opcode) j).regs .result =
      InterpreterData.aluResult opcode.aluOperation (j.source opcode.srcA) (j.source opcode.srcB)
        c := by
  have hb : opcode.srcB = 0 := by
    by_contra hb
    exact h (.inr (.inr ⟨ha, hb⟩))
  obtain ⟨regs, hs, hr⟩ := @execs_aluSources_upTo code _ env native j h
  have hsource : j.source opcode.srcB = 0 := if_pos hb
  rw [execs_append, hs, hsource, JitData.source, if_neg ha, ← hr ha]
  unfold compileALUOperation
  dsimp only
  rw [emitted_upTo h]
  rcases hop with hop | hop | hop | hop <;> rw [hop]
  · rw [aluResult_add]
    cases (scanFlags code).canSkipCarry <;> simp [JitData.exec, JitData.execBasic]
  · rw [aluResult_subtract]
    simp
  · simp [InterpreterData.aluResult]
  · simp [InterpreterData.aluResult]

/-- The carry flag after an operation that is skipped: only an addition writes it, and CF is what
    it was before the instruction. -/
theorem execs_alu_carry_upTo (h : ¬ opcode.full) (hskip : (scanFlags code).canSkipCarry = false) :
    (execs env native (compileALUSources (scanFlags code) opcode ++
        compileALUOperation (scanFlags code) opcode) j).carryFlag =
      if opcode.aluOperation = .add then j.cf else j.carryFlag := by
  obtain ⟨regs, hs, -⟩ := @execs_aluSources_upTo code _ env native j h
  rw [execs_append, hs]
  unfold compileALUOperation
  dsimp only
  rw [emitted_upTo h, hskip]
  cases hop : opcode.aluOperation with
  | addWithCarry => exact absurd (.inl hop) h
  | subtractWithBorrow => exact absurd (.inr (.inl hop)) h
  | and =>
    dsimp only
    split <;> rfl
  | andNot =>
    dsimp only
    split <;> rfl
  | nand =>
    dsimp only
    split <;> rfl
  | _ => rfl

/-! ### The other operations -/

variable {v : BitVec 32}

theorem eq_two_of_toInt (h1 : ¬ v.toInt > 2) (h2 : ¬ v.toInt = 1)
    (h3 : ¬ v.toInt < 0) (h4 : v ≠ 2) : v = 0 := by
  have h : v.toInt = 0 ∨ v.toInt = 2 := by omega
  rcases h with h | h
  · exact BitVec.eq_of_toInt_eq h
  · exact absurd (BitVec.eq_of_toInt_eq h) h4

theorem execs_immediate_result (h : opcode.srcA = 0 ∨ opcode.immediate ≠ 2) :
    (execs env native (compileImmediate (scanFlags code) opcode) j).regs .result =
      j.source opcode.srcA + opcode.immediate := by
  unfold compileImmediate
  by_cases ha : opcode.srcA = 0
  · rw [if_pos (by simp [scanFlags, ha]), JitData.source, if_pos ha]
    split
    · rename_i hi
      rw [hi]
      simp [JitData.exec, JitData.execBasic, JitData.arith, JitData.operand, JitData.setReg,
        JitData.setFlags]
    · simp [JitData.exec, JitData.execBasic, JitData.operand, JitData.setReg]
  · obtain ⟨cf, zf, hg⟩ := execs_getRegister env native j opcode.srcA .result
    rw [if_neg (by simpa [scanFlags] using ha), execs_append, hg]
    split
    · rfl
    · split
      · rename_i h1
        have : opcode.immediate = 1 := BitVec.eq_of_toInt_eq h1
        rw [this]
        rfl
      · split
        · simp [JitData.exec, JitData.execBasic, JitData.arith, JitData.operand, JitData.setReg,
            JitData.setFlags]
        · rename_i h1 h2 h3
          rw [eq_two_of_toInt h1 h2 h3 (h.resolve_left ha)]
          simp [JitData.setReg, JitData.setFlags]

theorem execs_immediate_carryFlag :
    (execs env native (compileImmediate (scanFlags code) opcode) j).carryFlag = j.carryFlag := by
  unfold compileImmediate
  split
  · split <;> rfl
  · obtain ⟨cf, zf, hg⟩ := execs_getRegister env native j opcode.srcA .result
    rw [execs_append, hg]
    split
    · rfl
    · split
      · rfl
      · split <;> rfl

@[simp] theorem shiftRight_regs (r : Reg32) (n : Nat) :
    (j.shiftRight r n).regs = Function.update j.regs r (j.regs r >>> n) := by
  unfold JitData.shiftRight
  split
  · rename_i h
    simp [h]
  · rfl

@[simp] theorem shiftLeft_regs (r : Reg32) (n : Nat) :
    (j.shiftLeft r n).regs = Function.update j.regs r (j.regs r <<< n) := by
  unfold JitData.shiftLeft
  split
  · rename_i h
    simp [h]
  · rfl

@[simp] theorem shiftRight_carryFlag (r : Reg32) (n : Nat) :
    (j.shiftRight r n).carryFlag = j.carryFlag := by
  unfold JitData.shiftRight
  split <;> rfl

@[simp] theorem shiftLeft_carryFlag (r : Reg32) (n : Nat) : (j.shiftLeft r n).carryFlag = j.carryFlag := by
  unfold JitData.shiftLeft
  split <;> rfl

theorem bfSrcBit_mod : opcode.bfSrcBit % 32 = opcode.bfSrcBit :=
  Nat.mod_eq_of_lt (BitVec.isLt _)

theorem bfDstBit_mod : opcode.bfDstBit % 32 = opcode.bfDstBit :=
  Nat.mod_eq_of_lt (BitVec.isLt _)

/-- The result of an operation whose operands are in registers. -/
def fieldResult (opcode : Opcode) (a b : BitVec 32) : BitVec 32 :=
  match opcode.operation with
  | .extractInsert =>
    a &&& ~~~(opcode.getBitfieldMask <<< opcode.bfDstBit) |||
      (b >>> opcode.bfSrcBit &&& opcode.getBitfieldMask) <<< opcode.bfDstBit
  | .extractShiftLeftImmediate =>
    (b >>> a.toNat &&& opcode.getBitfieldMask) <<< opcode.bfDstBit
  | _ => (b >>> opcode.bfSrcBit &&& opcode.getBitfieldMask) <<< a.toNat

theorem execs_field (hop : opcode.operation = .extractInsert ∨ opcode.shiftsByRegister = true)
    (ha : opcode.shiftsByRegister = true → (j.source opcode.srcA).toNat < 32) :
    (execs env native (computeInstrs (scanFlags code) opcode) j).regs .result =
      fieldResult opcode (j.source opcode.srcA) (j.source opcode.srcB) ∧
    (execs env native (computeInstrs (scanFlags code) opcode) j).carryFlag = j.carryFlag := by
  have hops : opcode.operation = .extractInsert ∨ opcode.operation = .extractShiftLeftImmediate ∨
      opcode.operation = .extractShiftLeftRegister := by
    simpa [Opcode.shiftsByRegister] using hop
  unfold computeInstrs fieldResult
  rcases hops with h | h | h
  · obtain ⟨cf, zf, hg⟩ := execs_getRegisters env native j opcode.srcA opcode.srcB .result .eax
    rw [h, execs_append, hg]
    simp [JitData.exec, JitData.execBasic, JitData.arith, JitData.operand, JitData.setReg,
      JitData.setFlags, bfSrcBit_mod, bfDstBit_mod]
  · obtain ⟨cf, zf, hg⟩ := execs_getRegisters env native j opcode.srcA opcode.srcB .ecx .result
    have ha := ha (by simp [Opcode.shiftsByRegister, h])
    rw [h, execs_append, hg]
    simp [JitData.exec, JitData.execBasic, JitData.arith, JitData.operand, JitData.setReg,
      JitData.setFlags, bfDstBit_mod, Nat.mod_eq_of_lt ha]
  · obtain ⟨cf, zf, hg⟩ := execs_getRegisters env native j opcode.srcA opcode.srcB .ecx .result
    have ha := ha (by simp [Opcode.shiftsByRegister, h])
    rw [h, execs_append, hg]
    simp [JitData.exec, JitData.execBasic, JitData.arith, JitData.operand, JitData.setReg,
      JitData.setFlags, bfSrcBit_mod, Nat.mod_eq_of_lt ha]

/-- The compiled code's carry flag `f` says what its sense says of the interpreter's `c`. -/
def CarryAgrees (sense : CarrySense) (c f : Bool) : Prop :=
  match sense with
  | .sum => f = c
  | .difference => f = !c
  | .lost => True

variable {env native j} {d : InterpreterData}

theorem zeroRegisterRight_partial (hop : opcode.operation = .alu)
    (hused : opcode.usesResult = true) (hzero : opcode.zeroRegisterRight = true)
    (hfull : ¬ opcode.full) :
    opcode.srcA ≠ 0 ∧ (opcode.aluOperation = .add ∨ opcode.aluOperation = .subtract ∨
      opcode.aluOperation = .xor ∨ opcode.aluOperation = .or) := by
  have hne : ¬ (opcode.srcA ≠ 0 ∧ opcode.srcB ≠ 0) := fun h => hfull (.inr (.inr h))
  cases hal : opcode.aluOperation with
  | addWithCarry => exact absurd (.inl hal) hfull
  | subtractWithBorrow => exact absurd (.inr (.inl hal)) hfull
  | add | subtract | xor | or =>
    exact ⟨by simpa [Opcode.zeroRegisterRight, hop, hused, hal] using hzero, by simp⟩
  | _ =>
    exact absurd (by simpa [Opcode.zeroRegisterRight, hop, hused, hal] using hzero) hne

variable {sense : CarrySense}

theorem compute_alu_result (hop : opcode.operation = .alu)
    (hvalid : opcode.aluOperation ≠ .invalid) (hused : opcode.usesResult = true)
    (hzero : opcode.zeroRegisterRight = true)
    (hsrc : ∀ r ∈ opcode.sources, j.source r = d.registers r)
    (hright : sense.right opcode = true)
    (hcarry : opcode.usesCarry = true → CarryAgrees sense d.carryFlag j.carryFlag) :
    (execs env native (computeInstrs (scanFlags code) opcode) j).regs .result = d.result env opcode := by
  have ha : j.source opcode.srcA = d.registers opcode.srcA :=
    hsrc _ (by simp [Opcode.sources, hop])
  have hb : j.source opcode.srcB = d.registers opcode.srcB :=
    hsrc _ (by simp [Opcode.sources, hop])
  simp only [computeInstrs, InterpreterData.result, hop, ← ha, ← hb]
  by_cases hfull : opcode.full
  · rw [execs_alu_result env native j hfull hvalid]
    -- Only two operations take the carry, each in its own sense.
    by_cases h1 : opcode.aluOperation = .addWithCarry
    · have hs : sense = .sum := by simpa [CarrySense.right, hop, h1] using hright
      have hc := hcarry (by simp [Opcode.usesCarry, hop, h1])
      rw [hs] at hc
      rw [if_neg (by simp [h1]), show j.carryFlag = d.carryFlag from hc]
    · by_cases h2 : opcode.aluOperation = .subtractWithBorrow
      · have hs : sense = .difference := by simpa [CarrySense.right, hop, h2] using hright
        have hc := hcarry (by simp [Opcode.usesCarry, hop, h2])
        rw [hs] at hc
        rw [if_pos h2, show j.carryFlag = !d.carryFlag from hc, Bool.not_not]
      · rw [if_neg h2]
        cases hal : opcode.aluOperation <;> first | rfl | exact absurd hal h1 | exact absurd hal h2
  · obtain ⟨hne, hops⟩ := zeroRegisterRight_partial hop hused hzero hfull
    exact execs_alu_result_partial env native j hfull hne hops _

theorem compute_alu_carry (hop : opcode.operation = .alu)
    (hskip : (scanFlags code).canSkipCarry = false) (hcf : j.cf = false)
    (hsrc : ∀ r ∈ opcode.sources, j.source r = d.registers r)
    (hright : sense.right opcode = true) (hcarry : CarryAgrees sense d.carryFlag j.carryFlag) :
    CarryAgrees (sense.after opcode) (d.carry opcode)
      (execs env native (computeInstrs (scanFlags code) opcode) j).carryFlag := by
  have ha : j.source opcode.srcA = d.registers opcode.srcA :=
    hsrc _ (by simp [Opcode.sources, hop])
  have hb : j.source opcode.srcB = d.registers opcode.srcB :=
    hsrc _ (by simp [Opcode.sources, hop])
  simp only [computeInstrs, InterpreterData.carry, hop, ← ha, ← hb, CarrySense.after, ↓reduceIte]
  by_cases hfull : opcode.full
  · rw [execs_alu_carry env native j hfull hskip]
    cases hal : opcode.aluOperation with
    | add => exact (aluCarry_add _ _ j.carryFlag).trans (aluCarry_add _ _ _).symm
    | addWithCarry =>
      have hs : sense = .sum := by simpa [CarrySense.right, hop, hal] using hright
      rw [hs] at hcarry
      exact congrArg _ hcarry
    | subtract =>
      have hne : opcode.srcA ≠ 0 ∧ opcode.srcB ≠ 0 := by simpa [Opcode.full, hal] using hfull
      simp only [if_pos hne, jitCarry, aluCarry_subtract, CarryAgrees]
    | subtractWithBorrow =>
      have hs : sense = .difference := by simpa [CarrySense.right, hop, hal] using hright
      rw [hs] at hcarry
      simp only [jitCarry, CarryAgrees, show j.carryFlag = !d.carryFlag from hcarry, Bool.not_not]
    | _ => exact hcarry
  · rw [execs_alu_carry_upTo env native j hfull hskip]
    cases hal : opcode.aluOperation with
    | add =>
      -- A sum with a register 0 has no carry, and CF is clear before an instruction.
      have hz : opcode.srcA = 0 ∨ opcode.srcB = 0 := by
        by_contra hne
        rw [not_or] at hne
        exact hfull (.inr (.inr hne))
      have hno : ¬ 2 ^ 32 ≤ (j.source opcode.srcA).toNat + (j.source opcode.srcB).toNat := by
        have h1 := (j.source opcode.srcA).isLt
        have h2 := (j.source opcode.srcB).isLt
        rcases hz with hz | hz
        · have : j.source opcode.srcA = 0 := if_pos hz
          simp only [this, BitVec.ofNat_eq_ofNat, BitVec.toNat_ofNat] at *
          omega
        · have : j.source opcode.srcB = 0 := if_pos hz
          simp only [this, BitVec.ofNat_eq_ofNat, BitVec.toNat_ofNat] at *
          omega
      simp only [↓reduceIte, CarryAgrees, aluCarry_add, hcf, decide_eq_false hno]
    | addWithCarry => exact absurd (.inl hal) hfull
    | subtractWithBorrow => exact absurd (.inr (.inl hal)) hfull
    | subtract =>
      have hne : ¬ (opcode.srcA ≠ 0 ∧ opcode.srcB ≠ 0) := fun h => hfull (.inr (.inr h))
      simp only [if_neg hne, CarryAgrees]
    | _ => exact hcarry

/-- **The result of an operation** in RESULT, where it is used. -/
theorem compute_result (hunused : opcode.operation ≠ .unused) (hbranch : opcode.operation ≠ .branch)
    (hvalid : opcode.operation = .alu → opcode.aluOperation ≠ .invalid)
    (hused : opcode.usesResult = true) (hzero : opcode.zeroRegisterRight = true)
    (himm : opcode.immediateRight = true)
    (hshift : opcode.shiftsByRegister = true → (d.registers opcode.srcA).toNat < 32)
    (hcalls : j.calls = d.calls) (hsrc : ∀ r ∈ opcode.sources, j.source r = d.registers r)
    (hright : sense.right opcode = true)
    (hcarry : opcode.usesCarry = true → CarryAgrees sense d.carryFlag j.carryFlag) :
    (execs env native (computeInstrs (scanFlags code) opcode) j).regs .result = d.result env opcode := by
  have himm' : opcode.operation = .addImmediate ∨ opcode.operation = .read →
      opcode.srcA = 0 ∨ opcode.immediate ≠ 2 := by
    intro h
    rcases h with h | h <;> simpa [Opcode.immediateRight, h, hused] using himm
  cases hop : opcode.operation with
  | unused => exact absurd hop hunused
  | branch => exact absurd hop hbranch
  | alu => exact compute_alu_result hop (hvalid hop) hused hzero hsrc hright hcarry
  | addImmediate =>
    simp only [computeInstrs, InterpreterData.result, hop]
    rw [execs_immediate_result env native j (himm' (.inl hop)), hsrc _ (by simp [Opcode.sources, hop])]
  | read =>
    have hread := @execs_immediate_result code _ env native j (himm' (.inr hop))
    have hsame : (execs env native (compileImmediate (scanFlags code) opcode) j).calls = j.calls :=
      (SameState.execs (computes_immediate (scanFlags code))).calls
    simp only [computeInstrs, InterpreterData.result, hop, execs_append, execs_cons, execs_nil]
    rw [← hcalls, ← hsame, ← hsrc _ (by simp [Opcode.sources, hop] : opcode.srcA ∈ opcode.sources), ← hread]
    simp [JitData.exec, JitData.execBasic, JitData.setReg]
  | extractInsert | extractShiftLeftImmediate | extractShiftLeftRegister =>
    have ha := hsrc opcode.srcA (by simp [Opcode.sources, hop])
    have hb := hsrc opcode.srcB (by simp [Opcode.sources, hop])
    rw [(execs_field env native j (by simp [Opcode.shiftsByRegister, hop])
      (by rw [ha]; exact hshift)).1, ha, hb]
    simp only [fieldResult, InterpreterData.result, hop]

/-- **The carry flag after an operation**. -/
theorem compute_carry (hskip : (scanFlags code).canSkipCarry = false) (hcf : j.cf = false)
    (hshift : opcode.shiftsByRegister = true → (d.registers opcode.srcA).toNat < 32)
    (hsrc : ∀ r ∈ opcode.sources, j.source r = d.registers r)
    (hright : sense.right opcode = true) (hcarry : CarryAgrees sense d.carryFlag j.carryFlag) :
    CarryAgrees (sense.after opcode) (d.carry opcode)
      (execs env native (computeInstrs (scanFlags code) opcode) j).carryFlag := by
  by_cases halu : opcode.operation = .alu
  · exact compute_alu_carry halu hskip hcf hsrc hright hcarry
  · have hsame : (execs env native (computeInstrs (scanFlags code) opcode) j).carryFlag =
        j.carryFlag := by
      cases hop : opcode.operation with
      | alu => exact absurd hop halu
      | unused | branch => simp only [computeInstrs, hop, execs_nil]
      | addImmediate =>
        simp only [computeInstrs, hop]
        exact execs_immediate_carryFlag env native j
      | read =>
        simp only [computeInstrs, hop, execs_append]
        exact execs_immediate_carryFlag env native j
      | extractInsert | extractShiftLeftImmediate | extractShiftLeftRegister =>
        have ha := hsrc opcode.srcA (by simp [Opcode.sources, hop])
        exact (execs_field env native j (by simp [Opcode.shiftsByRegister, hop])
          (by rw [ha]; exact hshift)).2
    have hd : d.carry opcode = d.carryFlag := by
      unfold InterpreterData.carry
      split
      · contradiction
      · rfl
    rw [hsame, hd, CarrySense.after, if_neg halu]
    exact hcarry

end Compute

/-! ## 4. The processed results -/

/-- **The two states agree**, up to a register whose move was left out, and in the method address
    unless its move was. -/
structure Agrees (dirty : Option (BitVec 3)) (method : Bool) (d : InterpreterData) (j : JitData) :
    Prop where
  registers : ∀ r, r ≠ 0 → dirty ≠ some r → j.registers r = d.registers r
  zero : d.registers 0 = 0
  method : method = true → d.methodAddress.setWidth 18 = (j.regs .methodAddress).setWidth 18
  parameter : j.parameter = d.nextParameterIndex
  calls : j.calls = d.calls

namespace Agrees

variable {env : Env} {native : Native} {dirty : Option (BitVec 3)} {method : Bool}
  {d : InterpreterData} {j j' : JitData}

theorem source (h : Agrees dirty method d j) {r : BitVec 3} (hr : r = 0 ∨ dirty ≠ some r) :
    j.source r = d.registers r := by
  rw [JitData.source]
  split
  · rename_i h0
    rw [h0, h.zero]
  · rename_i h0
    exact h.registers r h0 (hr.resolve_left h0)

theorem of_sameState (h : Agrees dirty method d j) (hs : SameState j j') : Agrees dirty method d j' :=
  ⟨fun r h0 hr => by rw [hs.registers]; exact h.registers r h0 hr, h.zero,
    fun hm => by rw [hs.method]; exact h.method hm, hs.parameter.trans h.parameter,
    hs.calls.trans h.calls⟩

theorem setCarry (h : Agrees dirty method d j) (c : Bool) :
    Agrees dirty method { d with carryFlag := c } j :=
  ⟨h.registers, h.zero, h.method, h.parameter, h.calls⟩

theorem setRegister (env : Env) (native : Native) (h : Agrees dirty method d j) {reg : BitVec 3}
    (hreg : dirty = none ∨ dirty = some reg) {src : Reg32} (hv : j.regs src = v) :
    Agrees none method (d.setRegister reg v) (execs env native (compileSetRegister reg src) j) := by
  unfold InterpreterData.setRegister compileSetRegister
  by_cases h0 : reg = 0
  · rw [if_pos h0, if_pos h0]
    refine ⟨fun r hr _ => h.registers r hr ?_, h.zero, h.method, h.parameter, h.calls⟩
    rintro rfl
    rcases hreg with hreg | hreg
    · simp at hreg
    · exact hr ((Option.some.inj hreg).trans h0)
  · rw [if_neg h0, if_neg h0]
    refine ⟨fun r hr _ => ?_, ?_, h.method, h.parameter, h.calls⟩
    · show Function.update j.registers reg (j.regs src) r = Function.update d.registers reg v r
      by_cases hrr : r = reg
      · subst hrr
        simp [hv]
      · rw [Function.update_of_ne hrr, Function.update_of_ne hrr]
        refine h.registers r hr ?_
        rintro rfl
        rcases hreg with hreg | hreg
        · simp at hreg
        · exact hrr (Option.some.inj hreg)
    · show Function.update d.registers reg v 0 = 0
      rw [Function.update_of_ne (Ne.symm h0), h.zero]

theorem setMethodAddress (env : Env) (native : Native) (h : Agrees dirty method d j) {src : Reg32}
    (hv : j.regs src = v) :
    Agrees dirty true (d.setMethodAddress v) (execs env native (compileSetMethodAddress src) j) := by
  refine ⟨h.registers, h.zero, fun _ => ?_, h.parameter, h.calls⟩
  simp [compileSetMethodAddress, JitData.exec, JitData.execBasic, JitData.operand, JitData.setReg,
    InterpreterData.setMethodAddress, hv]

end Agrees

section Process

variable {env : Env} {native : Native} {d : InterpreterData} {j : JitData}

@[simp] theorem execs_setRegister_regs (reg : BitVec 3) (src : Reg32) :
    (execs env native (compileSetRegister reg src) j).regs = j.regs := by
  unfold compileSetRegister
  split <;> rfl

@[simp] theorem execs_setRegister_carryFlag (reg : BitVec 3) (src : Reg32) :
    (execs env native (compileSetRegister reg src) j).carryFlag = j.carryFlag := by
  unfold compileSetRegister
  split <;> rfl

@[simp] theorem setRegister_methodAddress (reg : BitVec 3) (v : BitVec 32) :
    (d.setRegister reg v).methodAddress = d.methodAddress := by
  unfold InterpreterData.setRegister
  split <;> rfl

@[simp] theorem setRegister_nextParameterIndex (reg : BitVec 3) (v : BitVec 32) :
    (d.setRegister reg v).nextParameterIndex = d.nextParameterIndex := by
  unfold InterpreterData.setRegister
  split <;> rfl

@[simp] theorem setMethodAddress_nextParameterIndex (v : BitVec 32) :
    (d.setMethodAddress v).nextParameterIndex = d.nextParameterIndex := rfl

theorem exec_fetchParameter (h : j.parameter < env.params.length) : j.exec env native .fetchParameter =
      { j.setReg .eax (env.params.getD j.parameter (native.stray j.parameter)) with
        parameter := j.parameter + 1
        cf := false
        zf := false } := by
  show j.fetchParameter env native = _
  rw [JitData.fetchParameter, if_pos h]

theorem Agrees.fetch (native : Native) {dirty : Option (BitVec 3)} {method : Bool}
    (h : Agrees dirty method d j) (hlt : d.nextParameterIndex < env.params.length) :
    Agrees dirty method d.fetched (j.exec env native .fetchParameter) ∧
      (j.exec env native .fetchParameter).regs .eax = d.parameter env ∧
      (j.exec env native .fetchParameter).regs .result = j.regs .result ∧
      (j.exec env native .fetchParameter).carryFlag = j.carryFlag := by
  have hp := h.parameter
  rw [exec_fetchParameter (by rw [hp]; exact hlt)]
  refine ⟨⟨h.registers, h.zero, fun hm => ?_, by simp [InterpreterData.fetched, hp], h.calls⟩, ?_, ?_, rfl⟩
  · simpa [JitData.setReg, InterpreterData.fetched] using h.method hm
  · simp [JitData.setReg, InterpreterData.parameter, hp, List.getD, hlt]
  · simp [JitData.setReg]

theorem exec_processMethodAddress (env : Env) (native : Native) (j : JitData) :
    (j.exec env native .processMethodAddress).regs .methodAddress = incremented (j.regs .methodAddress) ∧
      (j.exec env native .processMethodAddress).registers = j.registers ∧
      (j.exec env native .processMethodAddress).parameter = j.parameter ∧
      (j.exec env native .processMethodAddress).calls = j.calls ∧
      (j.exec env native .processMethodAddress).carryFlag = j.carryFlag := by
  have hexec : j.exec env native .processMethodAddress = j.processMethodAddress env native := rfl
  rw [hexec, JitData.processMethodAddress, incremented]
  by_cases hz : j.regs .methodAddress &&& 0x3f000#32 = 0
  · rw [if_pos hz, if_pos (by simpa [JitData.execBasic, JitData.setFlags] using hz)]
    exact ⟨rfl, rfl, rfl, rfl, rfl⟩
  · rw [if_neg hz, if_neg (by simpa [JitData.execBasic, JitData.setFlags] using hz)]
    refine ⟨?_, ?_, ?_, ?_, ?_⟩ <;>
      simp [JitData.methodAddressCode, JitData.execBasic, JitData.arith, JitData.operand,
        JitData.setReg, JitData.setFlags, JitData.shiftRight, JitData.shiftLeft]

/-- **`Compile_Send`**: the call and the method address after it. -/
theorem Agrees.send (env : Env) (native : Native) (h : Agrees none true d j) (value : Reg32)
    (hv : j.regs value = v) (hinc : IncrementRight d.methodAddress) :
    Agrees none true (d.send v) (execs env native (compileSend value) j) ∧
      (execs env native (compileSend value) j).carryFlag = j.carryFlag := by
  have hm := h.method rfl
  have hmethod : methodOf (j.regs .methodAddress) = methodOf d.methodAddress := by
    rw [← BitVec.toNat_inj, toNat_methodOf, toNat_methodOf]
    have hnat : d.methodAddress.toNat % 2 ^ 18 = (j.regs .methodAddress).toNat % 2 ^ 18 := by
      simpa using congrArg BitVec.toNat hm
    omega
  obtain ⟨h1, h2, h3, h4, h5⟩ := exec_processMethodAddress env native (j.exec env native (.callSend value))
  have hregs : (j.exec env native (.callSend value)).regs .methodAddress = j.regs .methodAddress := by
    simp [JitData.exec, JitData.execBasic, JitData.clobber, JitData.setReg, JitData.setFlags]
  refine ⟨⟨fun r hr hd => ?_, h.zero, fun _ => ?_, ?_, ?_⟩, h5⟩
  · exact (congrFun h2 r).trans (h.registers r hr hd)
  · refine Eq.trans ?_ (congrArg (BitVec.setWidth 18) h1).symm
    rw [hregs]
    exact (incremented_eq hm hinc).symm
  · exact h3.trans h.parameter
  · refine h4.trans ?_
    show j.calls ++ [⟨methodOf (j.regs .methodAddress), j.regs value⟩] = _
    rw [h.calls, hmethod, hv]
    rfl

theorem Agrees.process_methodMove (env : Env) (native : Native) {dirty : Option (BitVec 3)} {method : Bool}
    (h : Agrees dirty method d j) {reg : BitVec 3} (hdirty : dirty = none ∨ dirty = some reg)
    {result : BitVec 32} (hresult : j.regs .result = result) :
    Agrees none true (d.processResult env .moveAndSetMethod reg result)
        (execs env native (compileProcessResult .moveAndSetMethod reg) j) ∧
      (execs env native (compileProcessResult .moveAndSetMethod reg) j).carryFlag =
        j.carryFlag := by
  rw [compileProcessResult, execs_append]
  refine ⟨(h.setRegister env native hdirty hresult).setMethodAddress env native
    (by simpa using hresult), ?_⟩
  exact execs_setRegister_carryFlag reg .result

/-- What an instruction needs of the method address that it sends to. -/
def SendRight (operation : ResultOperation) (methodAddress result : BitVec 32) : Prop :=
  match operation with
  | .fetchAndSend | .moveAndSend => IncrementRight methodAddress
  | .moveAndSetMethodFetchAndSend | .moveAndSetMethodSend => IncrementRight result
  | _ => True

/-- **`Compile_ProcessResult` and `ProcessResult`**: with the result where it is used, a parameter
    where one is fetched, and an increment without a carry where it sends. -/
theorem Agrees.process (h : Agrees none true d j) {opcode : Opcode}
    (hunused : opcode.operation ≠ .unused) (hbranch : opcode.operation ≠ .branch)
    {result : BitVec 32} (hresult : opcode.usesResult = true → j.regs .result = result)
    (hfetch : opcode.fetches = true → d.nextParameterIndex < env.params.length)
    (hsend : SendRight opcode.resultOperation d.methodAddress result) :
    Agrees none true (d.processResult env opcode.resultOperation opcode.dst result)
        (execs env native (compileProcessResult opcode.resultOperation opcode.dst) j) ∧
      (execs env native (compileProcessResult opcode.resultOperation opcode.dst) j).carryFlag =
        j.carryFlag := by
  have hfetch' : opcode.resultOperation = .ignoreAndFetch ∨
      opcode.resultOperation = .fetchAndSend ∨ opcode.resultOperation = .fetchAndSetMethod ∨
      opcode.resultOperation = .moveAndSetMethodFetchAndSend →
      d.nextParameterIndex < env.params.length := by
    intro hr
    refine hfetch ?_
    unfold Opcode.fetches
    cases hop : opcode.operation <;> first
      | exact absurd hop hunused
      | exact absurd hop hbranch
      | (rcases hr with hr | hr | hr | hr <;> rw [hr])
  cases hr : opcode.resultOperation with
  | moveAndSetMethod =>
    exact h.process_methodMove env native (.inl rfl) (hresult (by simp [Opcode.usesResult, hr]))
  | ignoreAndFetch =>
    obtain ⟨h1, h2, -, h4⟩ := h.fetch native (hfetch' (.inl hr))
    exact ⟨h1.setRegister env native (.inl rfl) h2, (execs_setRegister_carryFlag _ _).trans h4⟩
  | move =>
    refine ⟨?_, execs_setRegister_carryFlag _ _⟩
    by_cases h0 : opcode.dst = 0
    · simp only [compileProcessResult, compileSetRegister, InterpreterData.processResult,
        InterpreterData.setRegister, if_pos h0, execs_nil]
      exact h
    · exact h.setRegister env native (.inl rfl) (hresult (by simpa [Opcode.usesResult, hr] using h0))
  | fetchAndSend =>
    have hres := hresult (by simp [Opcode.usesResult, hr])
    rw [hr] at hsend
    obtain ⟨h1, h2, h3, h4⟩ := h.fetch native (hfetch' (.inr (.inl hr)))
    have hset : Agrees none true (d.fetched.setRegister opcode.dst (d.parameter env)) _ :=
      h1.setRegister env native (.inl rfl) h2
    obtain ⟨h5, h6⟩ := hset.send env native .result (by rw [execs_setRegister_regs, h3, hres])
      (by rw [setRegister_methodAddress]; exact hsend)
    rw [compileProcessResult, execs_cons, execs_append]
    exact ⟨h5, h6.trans ((execs_setRegister_carryFlag _ _).trans h4)⟩
  | moveAndSend =>
    have hres := hresult (by simp [Opcode.usesResult, hr])
    rw [hr] at hsend
    have hset : Agrees none true (d.setRegister opcode.dst result) _ :=
      h.setRegister env native (.inl rfl) hres
    obtain ⟨h5, h6⟩ := hset.send env native .result (by rw [execs_setRegister_regs, hres])
      (by rw [setRegister_methodAddress]; exact hsend)
    rw [compileProcessResult, execs_append]
    exact ⟨h5, h6.trans (execs_setRegister_carryFlag _ _)⟩
  | fetchAndSetMethod =>
    have hres := hresult (by simp [Opcode.usesResult, hr])
    obtain ⟨h1, h2, h3, h4⟩ := h.fetch native (hfetch' (.inr (.inr (.inl hr))))
    rw [compileProcessResult, execs_cons, execs_append]
    refine ⟨(h1.setRegister env native (.inl rfl) h2).setMethodAddress env native
      (by rw [execs_setRegister_regs, h3, hres]), ?_⟩
    exact (execs_setRegister_carryFlag _ _).trans h4
  | moveAndSetMethodFetchAndSend =>
    have hres := hresult (by simp [Opcode.usesResult, hr])
    rw [hr] at hsend
    obtain ⟨h1, h2⟩ : Agrees none true (d.processResult env .moveAndSetMethod opcode.dst result) _
        ∧ _ := h.process_methodMove env native (.inl rfl) hres
    rw [InterpreterData.processResult] at h1
    obtain ⟨h3, h4, -, h6⟩ := h1.fetch native
      (by rw [setMethodAddress_nextParameterIndex, setRegister_nextParameterIndex]
          exact hfetch' (.inr (.inr (.inr hr))))
    obtain ⟨h7, h8⟩ := h3.send env native .eax h4 hsend
    have hcode : compileProcessResult .moveAndSetMethodFetchAndSend opcode.dst =
        compileProcessResult .moveAndSetMethod opcode.dst ++ .fetchParameter :: compileSend .eax := rfl
    rw [hcode, execs_append, execs_cons]
    exact ⟨h7, h8.trans (h6.trans h2)⟩
  | moveAndSetMethodSend =>
    have hres := hresult (by simp [Opcode.usesResult, hr])
    rw [hr] at hsend
    obtain ⟨h1, h2⟩ : Agrees none true (d.processResult env .moveAndSetMethod opcode.dst result) _
        ∧ _ := h.process_methodMove env native (.inl rfl) hres
    rw [InterpreterData.processResult] at h1
    have hcode : compileProcessResult .moveAndSetMethodSend opcode.dst =
        compileProcessResult .moveAndSetMethod opcode.dst ++
          ([.shr .result 12, .and .result (.imm 0b111111)] ++ compileSend .result) := by
      simp [compileProcessResult]
    have hregs : (execs env native (compileProcessResult .moveAndSetMethod opcode.dst) j).regs
        .result = result := by
      rw [compileProcessResult, execs_append]
      simp [compileSetMethodAddress, JitData.exec, JitData.execBasic, JitData.setReg, hres]
    rw [hcode, execs_append, execs_append]
    generalize execs env native (compileProcessResult .moveAndSetMethod opcode.dst) j = j' at *
    -- The two instructions leave only the bits to send in RESULT.
    have hs : SameState j' (execs env native [.shr .result 12, .and .result (.imm 0b111111)] j') :=
      SameState.execs (by simp [Instr.computes])
    obtain ⟨h7, h8⟩ := (h1.of_sameState hs).send env native .result (v := result >>> 12 &&& 0b111111#32)
      (by simp [JitData.exec, JitData.execBasic, JitData.arith, JitData.setReg, JitData.setFlags,
        JitData.operand, hregs]) hsend
    refine ⟨h7, h8.trans (Eq.trans ?_ h2)⟩
    simp [JitData.exec, JitData.execBasic, JitData.arith, JitData.setReg, JitData.setFlags]

end Process

/-! ## 5. One instruction -/

namespace InterpreterData

variable {env : Env} {opcode : Opcode} {d : InterpreterData}

@[simp] theorem setRegister_carryFlag (reg : BitVec 3) (v : BitVec 32) :
    (d.setRegister reg v).carryFlag = d.carryFlag := by
  unfold setRegister
  split <;> rfl

theorem processResult_carryFlag (operation : ResultOperation) (reg : BitVec 3) (v : BitVec 32) :
    (d.processResult env operation reg v).carryFlag = d.carryFlag := by
  cases operation <;> simp [processResult, setMethodAddress, send, fetched]

theorem operate_carryFlag : (d.operate env opcode).carryFlag = d.carry opcode := by
  unfold operate
  cases hop : opcode.operation with
  | unused | branch => simp [carry, hop]
  | _ => exact processResult_carryFlag _ _ _

theorem operate_nextParameterIndex : (d.operate env opcode).nextParameterIndex =
      d.nextParameterIndex + if opcode.fetches then 1 else 0 := by
  unfold operate Opcode.fetches
  cases opcode.operation with
  | unused | branch => rfl
  | _ =>
    cases opcode.resultOperation <;>
      simp [processResult, setMethodAddress, send, fetched, setRegister_nextParameterIndex]

theorem operate_eq (hunused : opcode.operation ≠ .unused) (hbranch : opcode.operation ≠ .branch) :
    d.operate env opcode = { d with carryFlag := d.carry opcode }.processResult env
      opcode.resultOperation opcode.dst (d.result env opcode) := by
  unfold operate
  cases hop : opcode.operation with
  | unused => exact absurd hop hunused
  | branch => exact absurd hop hbranch
  | _ => rfl

end InterpreterData

/-- The register whose move before an instruction was left out. -/
def dirtyAt (code : List Opcode) : Nat → Option (BitVec 3)
  | 0 => none
  | pc + 1 => code[pc]?.bind fun opcode =>
    if leftOut code[pc + 1]? opcode then some opcode.dst else none

section Step

variable {env : Env} {native : Native} {pc : Nat} {j : JitData}

theorem dataAt_succ (h : pc < env.code.length) :
    dataAt env (pc + 1) = (dataAt env pc).operate env env.code[pc] := by
  rw [dataAt, List.take_succ_eq_append_getElem h, List.foldl_append]
  rfl

variable {code : List Opcode}

theorem carrySense_succ (h : pc < code.length) :
    carrySense code (pc + 1) = (carrySense code pc).after code[pc] := by
  rw [carrySense, List.take_succ_eq_append_getElem h, List.foldl_append]
  rfl

theorem dirtyAt_succ (h : pc < code.length) : dirtyAt code (pc + 1) =
      if leftOut code[pc + 1]? code[pc] then some code[pc].dst else none := by
  simp [dirtyAt, List.getElem?_eq_getElem h]

theorem of_dirtyAt {r : BitVec 3} (h : dirtyAt code pc = some r) (hpc : pc < code.length) :
    code[pc].resultOperation = .moveAndSetMethod ∧ code[pc].dst = r ∧
      ∃ q, ∃ hq : q < code.length, pc = q + 1 ∧ leftOut code[q + 1]? code[q] = true ∧ code[q].dst = r := by
  cases pc with
  | zero => simp [dirtyAt] at h
  | succ q =>
    have hq : q < code.length := by omega
    rw [dirtyAt_succ hq] at h
    split at h
    · rename_i hleft
      have hr := Option.some.inj h
      have hnext : code[q + 1]? = some code[q + 1] := List.getElem?_eq_getElem hpc
      have hleft' := hleft
      rw [hnext] at hleft'
      simp only [leftOut, Option.any_some, Bool.and_eq_true, beq_iff_eq] at hleft'
      exact ⟨hleft'.2.1, hleft'.2.2.symm.trans hr, q, hq, rfl, hleft, hr⟩
    · simp at h

theorem nextParameterIndex_dataAt (h : pc ≤ env.code.length) :
    (dataAt env pc).nextParameterIndex = 1 + (env.code.take pc).countP Opcode.fetches := by
  induction pc with
  | zero => rfl
  | succ pc ih =>
    rw [dataAt_succ h, InterpreterData.operate_nextParameterIndex, ih (by omega),
      List.take_succ_eq_append_getElem h, List.countP_append, List.countP_singleton, Nat.add_assoc]

theorem StraightLine.fetch (hsl : StraightLine env) (h : pc < env.code.length)
    (hf : env.code[pc].fetches = true) :
    (dataAt env pc).nextParameterIndex < env.params.length := by
  have hp := hsl.params
  have hle : (env.code.take (pc + 1)).countP Opcode.fetches ≤ env.code.countP Opcode.fetches :=
    (List.take_sublist _ _).countP_le
  rw [List.take_succ_eq_append_getElem h, List.countP_append, List.countP_singleton, if_pos hf] at hle
  rw [nextParameterIndex_dataAt h.le]
  omega

theorem canSkipCarry_of_uses (h : pc < code.length)
    (hu : code[pc].usesCarry = true) : (scanFlags code).canSkipCarry = false := by
  have : code.any Opcode.usesCarry = true :=
    List.any_eq_true.mpr ⟨_, List.getElem_mem h, hu⟩
  simp [scanFlags, this]

/-- **Before an instruction**: the states agree, CF is clear, and the carry flag has its sense. -/
structure StateAt (env : Env) (pc : Nat) (j : JitData) : Prop where
  agrees : Agrees (dirtyAt env.code pc) (dirtyAt env.code pc).isNone (dataAt env pc) j
  carry : (scanFlags env.code).canSkipCarry = false →
    CarryAgrees (carrySense env.code pc) (dataAt env pc).carryFlag j.carryFlag

/-- A method move that is left out. -/
theorem StateAt.leftOut (hs : StateAt env pc j) (h : pc < env.code.length)
    (hleft : leftOut env.code[pc + 1]? env.code[pc] = true) :
    compileInstrs (scanFlags env.code) env.code[pc + 1]? env.code[pc] = [] ∧ StateAt env (pc + 1) j := by
  have hl : env.code[pc].operation = .addImmediate ∧ env.code[pc].resultOperation = .moveAndSetMethod ∧
      (env.code[pc + 1]?.any fun next =>
        next.resultOperation == .moveAndSetMethod && env.code[pc].dst == next.dst) = true := by
    simpa only [Macro.leftOut, Bool.and_eq_true, beq_iff_eq, and_assoc] using hleft
  obtain ⟨hop, hr, hnext⟩ := hl
  have hd : dataAt env (pc + 1) = (((dataAt env pc).setRegister env.code[pc].dst
      ((dataAt env pc).result env env.code[pc])).setMethodAddress
      ((dataAt env pc).result env env.code[pc])) := by
    rw [dataAt_succ h, InterpreterData.operate_eq (by simp [hop]) (by simp [hop]), hr]
    simp [InterpreterData.carry, hop, InterpreterData.processResult]
  refine ⟨?_, ⟨?_, ?_⟩⟩
  · have h1 : ¬ ((scanFlags env.code).skipDummyAddimmediate &&
        env.code[pc].resultOperation == .move && env.code[pc].dst == 0) = true := by simp [hr]
    have h2 : redundantMove (scanFlags env.code) env.code[pc + 1]? env.code[pc] = true := by
      rw [redundantMove, hnext]
      simp [scanFlags, hr]
    simp only [compileInstrs, hop, compileAddImmediate]
    rw [if_neg h1, if_pos h2]
  · rw [dirtyAt_succ h, if_pos hleft, hd]
    refine ⟨fun r h0 hne => ?_, ?_, fun hm => by simp at hm, ?_, ?_⟩
    · have hne' : r ≠ env.code[pc].dst := fun e => hne (congrArg some e.symm)
      have hold : dirtyAt env.code pc ≠ some r := fun hdirty =>
        hne' (of_dirtyAt hdirty h).2.1.symm
      rw [hs.agrees.registers r h0 hold]
      simp only [InterpreterData.setMethodAddress, InterpreterData.setRegister]
      split
      · rfl
      · exact (Function.update_of_ne hne' _ _).symm
    · have hz := hs.agrees.zero
      simp only [InterpreterData.setMethodAddress, InterpreterData.setRegister]
      split
      · exact hz
      · rename_i h0
        exact (Function.update_of_ne (Ne.symm h0) _ _).trans hz
    · rw [setMethodAddress_nextParameterIndex, setRegister_nextParameterIndex]
      exact hs.agrees.parameter
    · refine hs.agrees.calls.trans ?_
      simp only [InterpreterData.setMethodAddress, InterpreterData.setRegister]
      split <;> rfl
  · intro hskip
    rw [carrySense_succ h, dataAt_succ h, InterpreterData.operate_carryFlag]
    simpa [CarrySense.after, InterpreterData.carry, hop] using hs.carry hskip

/-- An instruction that is emitted. -/
theorem StateAt.emitted (native : Native) (hsl : StraightLine env) (hsr : ShortcutsRight env.code)
    (hsend : ∀ pc, (h : pc < env.code.length) → ∀ m,
      sendAddress env env.code[pc] (dataAt env pc) = some m → IncrementRight m)
    (hs : StateAt env pc j) (hcf : j.cf = false) (h : pc < env.code.length)
    (hunused : env.code[pc].operation ≠ .unused)
    (hdummy : ¬ (env.code[pc].operation = .addImmediate ∧
      env.code[pc].resultOperation = .move ∧ env.code[pc].dst = 0))
    (hleft : Macro.leftOut env.code[pc + 1]? env.code[pc] = false) :
    StateAt env (pc + 1) (execs env native
      (compileInstrs (scanFlags env.code) env.code[pc + 1]? env.code[pc]) j) := by
  have hbranch := (hsl.operation pc h).1
  have hsrc : ∀ r ∈ env.code[pc].sources, j.source r = (dataAt env pc).registers r := by
    intro r hr
    refine hs.agrees.source ?_
    by_contra hcon
    rw [not_or, not_not] at hcon
    obtain ⟨-, -, q, hq, rfl, hq1, hq2⟩ := of_dirtyAt hcon.2 h
    rcases (hsr.methodMove q hq h hq1 hleft).2 with hz | hnot
    · exact hcon.1 (hq2.symm.trans hz)
    · exact hnot (hq2 ▸ hr)
  have hshift := hsl.shift pc h
  have hsame : SameState j (execs env native (computeInstrs (scanFlags env.code) env.code[pc]) j) :=
    .execs (computes_computeInstrs _)
  have hresult : env.code[pc].usesResult = true →
      (execs env native (computeInstrs (scanFlags env.code) env.code[pc]) j).regs .result =
        (dataAt env pc).result env env.code[pc] := fun hused =>
    compute_result hunused hbranch (hsl.operation pc h).2 hused (hsr.zeroRegister pc h)
      (hsr.immediate pc h) hshift hs.agrees.calls hsrc (hsr.carry pc h)
      fun hu => hs.carry (canSkipCarry_of_uses h hu)
  have hagrees := (hs.agrees.of_sameState hsame).setCarry ((dataAt env pc).carry env.code[pc])
  rw [compileInstrs_eq _ hunused hbranch hdummy hleft, execs_append]
  have key : Agrees none true ((dataAt env pc).operate env env.code[pc])
      (execs env native (compileProcessResult env.code[pc].resultOperation env.code[pc].dst)
        (execs env native (computeInstrs (scanFlags env.code) env.code[pc]) j)) ∧
      (execs env native (compileProcessResult env.code[pc].resultOperation env.code[pc].dst)
        (execs env native (computeInstrs (scanFlags env.code) env.code[pc]) j)).carryFlag =
      (execs env native (computeInstrs (scanFlags env.code) env.code[pc]) j).carryFlag := by
    rw [InterpreterData.operate_eq hunused hbranch]
    cases hdirty : dirtyAt env.code pc with
    | none =>
      rw [hdirty] at hagrees
      refine hagrees.process hunused hbranch hresult (hsl.fetch h) ?_
      have hm := hsend pc h
      revert hm
      unfold sendAddress SendRight
      cases hop : env.code[pc].operation with
      | unused => exact absurd hop hunused
      | branch => exact absurd hop hbranch
      | _ => cases env.code[pc].resultOperation <;> simp
    | some r =>
      obtain ⟨hr, hdst, -⟩ := of_dirtyAt hdirty h
      rw [hdirty, ← hdst] at hagrees
      rw [hr]
      exact hagrees.process_methodMove env native (.inr rfl) (hresult (by simp [Opcode.usesResult, hr]))
  refine ⟨?_, fun hskip => ?_⟩
  · rw [dirtyAt_succ h, if_neg (by simp [hleft]), dataAt_succ h]
    exact key.1
  · rw [key.2, carrySense_succ h, dataAt_succ h, InterpreterData.operate_carryFlag]
    exact compute_carry hskip hcf hshift hsrc (hsr.carry pc h) (hs.carry hskip)

/-- An instruction without an effect, for which nothing is emitted. -/
theorem StateAt.skipped (native : Native) (hsr : ShortcutsRight env.code) (hs : StateAt env pc j)
    (h : pc < env.code.length)
    (hskip : env.code[pc].operation = .unused ∨ (env.code[pc].operation = .addImmediate ∧
      env.code[pc].resultOperation = .move ∧ env.code[pc].dst = 0))
    (hleft : Macro.leftOut env.code[pc + 1]? env.code[pc] = false) :
    StateAt env (pc + 1) (execs env native
      (compileInstrs (scanFlags env.code) env.code[pc + 1]? env.code[pc]) j) := by
  have hclean : dirtyAt env.code pc = none := by
    cases hdirty : dirtyAt env.code pc with
    | none => rfl
    | some r =>
      obtain ⟨hr, -, q, hq, rfl, hq1, -⟩ := of_dirtyAt hdirty h
      rcases hskip with hu | ⟨-, hmove, -⟩
      · exact absurd hu (hsr.methodMove q hq h hq1 hleft).1
      · rw [hr] at hmove
        cases hmove
  have hnil : compileInstrs (scanFlags env.code) env.code[pc + 1]? env.code[pc] = [] := by
    rcases hskip with hu | ⟨hop, hmove, h0⟩
    · simp only [compileInstrs, hu]
    · simp only [compileInstrs, hop, compileAddImmediate]
      rw [if_pos (by simp [scanFlags, hmove, h0])]
  have hdata : dataAt env (pc + 1) = dataAt env pc := by
    rw [dataAt_succ h]
    rcases hskip with hu | ⟨hop, hmove, h0⟩
    · simp only [InterpreterData.operate, hu]
    · rw [InterpreterData.operate_eq (by simp [hop]) (by simp [hop]), hmove, h0]
      simp [InterpreterData.processResult, InterpreterData.setRegister, InterpreterData.carry, hop]
  have hsense : carrySense env.code (pc + 1) = carrySense env.code pc := by
    rw [carrySense_succ h, CarrySense.after, if_neg]
    rcases hskip with hu | ⟨hop, -⟩ <;> simp [*]
  have hagrees := hs.agrees
  rw [hclean] at hagrees
  refine ⟨?_, ?_⟩
  · rw [dirtyAt_succ h, if_neg (by simp [hleft]), hdata, hnil]
    exact hagrees
  · rw [hdata, hsense, hnil]
    exact hs.carry

/-- **One instruction**: where every shortcut is right, the states agree after it. -/
theorem StateAt.step (native : Native) (hsl : StraightLine env) (hsr : ShortcutsRight env.code)
    (hsend : ∀ pc, (h : pc < env.code.length) → ∀ m,
      sendAddress env env.code[pc] (dataAt env pc) = some m → IncrementRight m)
    (hs : StateAt env pc j) (hcf : j.cf = false) (h : pc < env.code.length) :
    StateAt env (pc + 1) (execs env native
      (compileInstrs (scanFlags env.code) env.code[pc + 1]? env.code[pc]) j) := by
  have hbranch := (hsl.operation pc h).1
  cases hleft : Macro.leftOut env.code[pc + 1]? env.code[pc] with
  | true =>
    obtain ⟨hnil, hnext⟩ := hs.leftOut h hleft
    rw [hnil]
    exact hnext
  | false =>
    by_cases hskip : env.code[pc].operation = .unused ∨ (env.code[pc].operation = .addImmediate ∧
        env.code[pc].resultOperation = .move ∧ env.code[pc].dst = 0)
    · exact hs.skipped native hsr h hskip hleft
    · rw [not_or] at hskip
      exact hs.emitted native hsl hsr hsend hcf h hskip.1 hskip.2 hleft

theorem StateAt.setFlags (hs : StateAt env pc j) (cf zf : Bool) : StateAt env pc (j.setFlags cf zf) :=
  ⟨⟨hs.agrees.registers, hs.agrees.zero, hs.agrees.method, hs.agrees.parameter, hs.agrees.calls⟩, hs.carry⟩

theorem StateAt.init (native : Native) (h : 1 ≤ env.params.length) :
    StateAt env 0 (.init env native) ∧ (JitData.init env native).cf = false := by
  have hfetch : JitData.init env native =
      { (⟨fun _ => 0, false, false, 0, fun _ => 0, false, []⟩ : JitData).setReg .eax
          (env.params.getD 0 (native.stray 0)) with
        parameter := 1
        cf := false
        zf := false
        registers := Function.update (fun _ => 0) 1 (env.params.getD 0 (native.stray 0)) } := by
    simp [JitData.init, JitData.fetchParameter, show 0 < env.params.length from h,
      JitData.execBasic, JitData.setReg]
  rw [hfetch]
  refine ⟨⟨⟨fun r _ _ => ?_, ?_, fun _ => ?_, rfl, rfl⟩, fun _ => rfl⟩, rfl⟩
  · have h0 : 0 < env.params.length := h
    simp [dataAt, InterpreterData.init, List.getD, h0]
  · simp [dataAt, InterpreterData.init]
  · simp [dataAt, InterpreterData.init, JitData.setReg]

end Step

/-! ## 6. The runs -/

section Runs

variable {env : Env} {pc : Nat} {j : JitData}

theorem StraightLine.hasDelayedPc (hsl : StraightLine env) : (scanFlags env.code).hasDelayedPc = false := by
  refine List.any_eq_false.mpr fun opcode hop => ?_
  obtain ⟨pc, h, rfl⟩ := List.getElem_of_mem hop
  simp [Opcode.delaysPc, (hsl.operation pc h).1]

theorem reaches_instruction (native : Native) (hsl : StraightLine env) (h : pc < env.code.length)
    (holder : Holder) (rax : Option Holder) (j : JitData) (executed : List Int) :
    ∃ rax', Reaches (Jit.step env native) ⟨codeFrom env.code pc, holder, rax, j, 0, executed⟩
      ⟨compilePending (scanFlags env.code) pc env.code[pc] ++ codeFrom env.code (pc + 1), holder,
        rax', execs env native (compileInstrs (scanFlags env.code) env.code[pc + 1]? env.code[pc]) j,
        0, executed ++ [(pc : Int)]⟩ := by
  rw [codeFrom_cons (List.getElem?_eq_getElem h), compileOperation_instrs _ _ _ (hsl.operation pc h).1]
  obtain ⟨rax', hr⟩ := Jit.reaches_instrs env native
    (compileInstrs (scanFlags env.code) env.code[pc + 1]? env.code[pc])
    (compilePending (scanFlags env.code) pc env.code[pc] ++ codeFrom env.code (pc + 1)) holder rax
    j 0 (executed ++ [(pc : Int)])
  exact ⟨rax', .head hr⟩

theorem reaches_next (native : Native) (hsl : StraightLine env) (h : pc < env.code.length)
    (hx : env.code[pc].isExit = false) (rax : Option Holder) (j : JitData) (executed : List Int) :
    Reaches (Jit.step env native)
      ⟨compilePending (scanFlags env.code) pc env.code[pc] ++ codeFrom env.code (pc + 1), .num 0,
        rax, j, 0, executed⟩
      ⟨codeFrom env.code (pc + 1), .num 0, rax, j.setFlags false true, 0, executed⟩ := by
  rw [compilePending, if_neg (by simp [hsl.hasDelayedPc]), if_neg (by simp [hx])]
  exact ⟨2, rfl⟩

theorem reaches_exit (native : Native) (hsl : StraightLine env) (h : pc < env.code.length)
    (hx : env.code[pc].isExit = true) (rax : Option Holder) (j : JitData) (executed : List Int) :
    Reaches (Jit.step env native)
      ⟨compilePending (scanFlags env.code) pc env.code[pc] ++ codeFrom env.code (pc + 1), .num 0,
        rax, j, 0, executed⟩
      ⟨codeFrom env.code (pc + 1), .num 1, rax, (j.setFlags false true).setFlags false false, 0,
        executed⟩ := by
  rw [compilePending, if_neg (by simp [hsl.hasDelayedPc]), if_pos hx]
  exact ⟨3, rfl⟩

theorem reaches_left (native : Native) (hsl : StraightLine env) (h : pc < env.code.length)
    (hx : env.code[pc].isExit = false) (rax : Option Holder) (j : JitData) (executed : List Int) :
    Reaches (Jit.step env native)
      ⟨compilePending (scanFlags env.code) pc env.code[pc] ++ codeFrom env.code (pc + 1), .num 1,
        rax, j, 0, executed⟩
      ⟨[], .num 1, rax, j.setFlags false false, 0, executed⟩ := by
  rw [compilePending, if_neg (by simp [hsl.hasDelayedPc]), if_neg (by simp [hx])]
  have hjump : Reaches (Jit.step env native)
      ⟨[.testHolder, .jne .endOfCode] ++ codeFrom env.code (pc + 1), .num 1, rax, j, 0, executed⟩
      ⟨placeOf .endOfCode (compile env.code), .num 1, rax, j.setFlags false false, 0, executed⟩ := ⟨2, rfl⟩
  rw [placeOf_end] at hjump
  exact hjump.trans ⟨1, rfl⟩

/-- **The compiled code reaches each instruction** in a state that agrees. -/
theorem jit_reaches (native : Native) (hsl : StraightLine env) (hsr : ShortcutsRight env.code)
    (hsend : ∀ pc, (h : pc < env.code.length) → ∀ m,
      sendAddress env env.code[pc] (dataAt env pc) = some m → IncrementRight m)
    (hpc : pc + 2 ≤ env.code.length) :
    ∃ rax j executed, Reaches (Jit.step env native) (.init env native)
        ⟨codeFrom env.code pc, .num 0, rax, j, 0, executed⟩ ∧
      StateAt env pc j ∧ j.cf = false := by
  induction pc with
  | zero =>
    have hparams : 1 ≤ env.params.length := le_trans (by omega) hsl.params
    exact ⟨none, .init env native, [], .refl _, StateAt.init native hparams⟩
  | succ pc ih =>
    obtain ⟨rax, j, executed, hr, hs, hcf⟩ := ih (by omega)
    have h : pc < env.code.length := by omega
    have hx : env.code[pc].isExit = false := by
      rw [Bool.eq_false_iff]
      intro hx
      have := (hsl.exit pc h).mp hx
      omega
    obtain ⟨rax', hr'⟩ := reaches_instruction native hsl h (.num 0) rax j executed
    exact ⟨rax', _, _, (hr.trans hr').trans (reaches_next native hsl h hx rax' _ _),
      (hs.step native hsl hsr hsend hcf h).setFlags _ _, rfl⟩

theorem operate_data {s : Interpreter} {opcode : Opcode} (hb : opcode.operation ≠ .branch) :
    (s.operate env opcode).data = s.data.operate env opcode := by
  rw [Interpreter.operate, if_neg hb]

theorem execute_succ (fuel n : Nat) : Interpreter.execute env fuel (n + 1) =
    Interpreter.round env fuel (Interpreter.execute env fuel n) :=
  Function.iterate_succ_apply' _ _ _

/-- **The interpreter reaches each instruction** up to the exit. -/
theorem interpreter_reaches (fuel : Nat) (hsl : StraightLine env) (hpc : pc + 2 ≤ env.code.length) :
    (Interpreter.execute env (fuel + 2) pc).1 = true ∧
      (Interpreter.execute env (fuel + 2) pc).2.pc = 4 * (pc : Int) ∧
      (Interpreter.execute env (fuel + 2) pc).2.delayedPc = none ∧
      (Interpreter.execute env (fuel + 2) pc).2.data = dataAt env pc := by
  induction pc with
  | zero => exact ⟨rfl, rfl, rfl, rfl⟩
  | succ pc ih =>
    obtain ⟨h1, h2, h3, h4⟩ := ih (by omega)
    have h : pc < env.code.length := by omega
    have hb := (hsl.operation pc h).1
    have hx : ¬ env.code[pc].isExit = true := by
      intro hx
      have := (hsl.exit pc h).mp hx
      omega
    have hop := (Interpreter.getOpcode_eq env h2).trans (List.getElem?_eq_getElem h)
    rw [execute_succ, Interpreter.round, if_pos h1, Interpreter.step_plain (fuel + 1) hop hb, if_neg hx]
    refine ⟨rfl, ?_, ?_, ?_⟩
    · simp [Interpreter.fetch, h2, h3]
      omega
    · simp [Interpreter.fetch]
    · rw [operate_data hb, dataAt_succ h, ← h4]
      rfl

/-- The interpreter stops behind the delay slot of the exit. -/
theorem interpreter_stops (fuel : Nat) (hsl : StraightLine env) :
    (Interpreter.execute env (fuel + 2) (env.code.length - 1)).1 = false ∧
      (Interpreter.execute env (fuel + 2) (env.code.length - 1)).2.data = dataAt env env.code.length := by
  obtain ⟨n, hn⟩ : ∃ n, env.code.length = n + 2 := ⟨env.code.length - 2, by
    have := hsl.length
    omega⟩
  obtain ⟨h1, h2, h3, h4⟩ := @interpreter_reaches _ n fuel hsl (by omega)
  have h : n < env.code.length := by omega
  have h' : n + 1 < env.code.length := by omega
  have hb := (hsl.operation n h).1
  have hb' := (hsl.operation (n + 1) h').1
  have hop := (Interpreter.getOpcode_eq env h2).trans (List.getElem?_eq_getElem h)
  rw [show env.code.length - 1 = n + 1 by omega, execute_succ, Interpreter.round, if_pos h1,
    Interpreter.step_plain (fuel + 1) hop hb, if_pos ((hsl.exit n h).mpr hn.symm)]
  generalize (Interpreter.execute env (fuel + 2) n).2 = s at *
  have hpc' : ((s.fetch false).operate env env.code[n]).pc = 4 * ((n + 1 : Nat) : Int) := by
    simp [Interpreter.fetch, h2, h3]
    omega
  have hop' := (Interpreter.getOpcode_eq env hpc').trans (List.getElem?_eq_getElem h')
  rw [Interpreter.step_slot fuel hop' hb']
  refine ⟨rfl, ?_⟩
  have hlast : dataAt env env.code.length = dataAt env (n + 1 + 1) := by rw [hn]
  rw [operate_data hb', hlast, dataAt_succ h', dataAt_succ h, ← h4]
  have hfetch : ∀ t : Interpreter, (t.fetch true).data = t.data := fun _ => rfl
  rw [hfetch, operate_data hb]
  rfl

/-- The compiled code returns with the calls of the interpreter. -/
theorem jit_returns (native : Native) (hsl : StraightLine env) (hsr : ShortcutsRight env.code)
    (hsend : ∀ pc, (h : pc < env.code.length) → ∀ m,
      sendAddress env env.code[pc] (dataAt env pc) = some m → IncrementRight m) :
    ∃ s, Reaches (Jit.step env native) (.init env native) s ∧ s.rest = [] ∧
      s.data.calls = (dataAt env env.code.length).calls := by
  obtain ⟨n, hn⟩ : ∃ n, env.code.length = n + 2 := ⟨env.code.length - 2, by
    have := hsl.length
    omega⟩
  obtain ⟨rax, j, executed, hr, hs, hcf⟩ := @jit_reaches _ n native hsl hsr hsend (by omega)
  have h : n < env.code.length := by omega
  have h' : n + 1 < env.code.length := by omega
  have hx := (hsl.exit n h).mpr hn.symm
  have hx' : env.code[n + 1].isExit = false := by
    rw [Bool.eq_false_iff]
    intro hx
    have := (hsl.exit (n + 1) h').mp hx
    omega
  obtain ⟨rax1, hr1⟩ := reaches_instruction native hsl h (.num 0) rax j executed
  have hr2 := reaches_exit native hsl h hx rax1 (execs env native
    (compileInstrs (scanFlags env.code) env.code[n + 1]? env.code[n]) j) (executed ++ [(n : Int)])
  have hs1 := ((hs.step native hsl hsr hsend hcf h).setFlags false true).setFlags false false
  generalize hj1 : ((execs env native (compileInstrs (scanFlags env.code) env.code[n + 1]?
    env.code[n]) j).setFlags false true).setFlags false false = j1 at hr2 hs1
  obtain ⟨rax2, hr3⟩ := reaches_instruction native hsl h' (.num 1) rax1 j1 (executed ++ [(n : Int)])
  have hr4 := reaches_left native hsl h' hx' rax2 (execs env native
    (compileInstrs (scanFlags env.code) env.code[n + 1 + 1]? env.code[n + 1]) j1)
    (executed ++ [(n : Int)] ++ [((n + 1 : Nat) : Int)])
  have hs2 := hs1.step native hsl hsr hsend (by rw [← hj1]; rfl) h'
  refine ⟨_, (((hr.trans hr1).trans hr2).trans hr3).trans hr4, rfl, ?_⟩
  have hlast : dataAt env env.code.length = dataAt env (n + 1 + 1) := by rw [hn]
  rw [hlast]
  exact hs2.agrees.calls

/-- **The same calls**: for a macro without branches, the interpreter and the compiled code both
    come to their end and have then made the same calls, if each shortcut of the compiler is right
    where it is taken and no increment of the method address that is sent to carries into an even
    increment. -/
theorem straight_line_calls (env : Env) (native : Native) (fuel : Nat) (hsl : StraightLine env)
    (hsr : ShortcutsRight env.code)
    (hsend : ∀ pc, (h : pc < env.code.length) → ∀ m,
      sendAddress env env.code[pc] (dataAt env pc) = some m → IncrementRight m) :
    ∃ rounds steps, (Interpreter.execute env (fuel + 2) rounds).1 = false ∧
      (Jit.execute env native steps).rest = [] ∧
      (Jit.execute env native steps).data.calls =
        (Interpreter.execute env (fuel + 2) rounds).2.data.calls := by
  obtain ⟨h1, h2⟩ := interpreter_stops fuel hsl
  obtain ⟨s, ⟨steps, rfl⟩, h3, h4⟩ := jit_returns native hsl hsr hsend
  exact ⟨env.code.length - 1, steps, h1, h3, by rw [h2]; exact h4⟩

end Runs

/-- The sum of the first parameter and the method 0x1100, sent to the method. -/
def sumMacro : Env :=
  { Env.ofCode [⟨0x4400221⟩, ⟨0x8BC0⟩, ⟨0x11⟩] with params := [5] }

/-- The first parameter plus 2, sent. -/
def plusTwoMacro : Env :=
  { Env.ofCode [⟨0x88C1⟩, ⟨0x11⟩] with params := [5] }

theorem shift_of_none {env : Env}
    (h : ∀ pc, (h : pc < env.code.length) → env.code[pc].shiftsByRegister = false) (pc : Nat)
    (hpc : pc < env.code.length) (hs : env.code[pc].shiftsByRegister = true) :
    ((dataAt env pc).registers env.code[pc].srcA).toNat < 32 := by
  rw [h pc hpc] at hs
  cases hs

theorem straightLine_sumMacro : StraightLine sumMacro :=
  ⟨by decide, by decide, by decide, by decide, shift_of_none (by decide)⟩

theorem straightLine_plusTwoMacro : StraightLine plusTwoMacro :=
  ⟨by decide, by decide, by decide, by decide, shift_of_none (by decide)⟩

theorem straight_line_calls_sumMacro : ∃ rounds steps, (Interpreter.execute sumMacro 2 rounds).1 = false ∧
      (Jit.execute sumMacro Native.zero steps).rest = [] ∧
      (Jit.execute sumMacro Native.zero steps).data.calls =
        (Interpreter.execute sumMacro 2 rounds).2.data.calls := by
  refine straight_line_calls sumMacro Native.zero 0 straightLine_sumMacro
    ⟨by decide, by decide, by decide, by decide⟩ ?_
  have h0 : sendAddress sumMacro ⟨0x4400221⟩ (dataAt sumMacro 0) = none := by decide
  have h1 : sendAddress sumMacro ⟨0x8BC0⟩ (dataAt sumMacro 1) = some 0x1100 := by decide
  have h2 : sendAddress sumMacro ⟨0x11⟩ (dataAt sumMacro 2) = none := by decide
  intro pc h m hm
  match pc, h with
  | 0, _ => exact absurd (h0.symm.trans hm) (by simp)
  | 1, _ =>
    obtain rfl : 0x1100 = m := Option.some.inj (h1.symm.trans hm)
    decide
  | 2, _ => exact absurd (h2.symm.trans hm) (by simp)

/-- The compiled code sends the first parameter where the interpreter sends it plus 2. -/
theorem immediate_two_dropped : ¬ ∀ (env : Env) (native : Native) (fuel : Nat), StraightLine env →
    ∃ rounds steps, (Interpreter.execute env (fuel + 2) rounds).1 = false ∧
      (Jit.execute env native steps).rest = [] ∧
      (Jit.execute env native steps).data.calls =
        (Interpreter.execute env (fuel + 2) rounds).2.data.calls := by
  intro h
  obtain ⟨rounds, steps, h1, h2, h3⟩ := h plusTwoMacro Native.zero 0 straightLine_plusTwoMacro
  -- Both have only one end.
  have hstop : (Interpreter.execute plusTwoMacro 2 1).1 = false := by decide
  have hreturn : (Jit.execute plusTwoMacro Native.zero 11).rest = [] := rfl
  have e1 : Interpreter.execute plusTwoMacro 2 rounds = Interpreter.execute plusTwoMacro 2 1 := by
    rw [← Interpreter.execute_stopped hstop rounds, Nat.add_comm]
    exact (Interpreter.execute_stopped h1 1).symm
  have e2 : Jit.execute plusTwoMacro Native.zero steps = Jit.execute plusTwoMacro Native.zero 11 := by
    rw [← Jit.execute_returned hreturn steps, Nat.add_comm]
    exact (Jit.execute_returned h2 11).symm
  rw [e2, e1] at h3
  exact absurd h3 (by decide)

end Yuzu.VideoCore.Macro
