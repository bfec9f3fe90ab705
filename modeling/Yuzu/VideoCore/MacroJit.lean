/-
  File:      Yuzu/VideoCore/MacroJit.lean
  Subject:   MacroJITx64Impl (video_core/macro/macro_jit_x64.cpp): the x64 code it emits for a
             macro, and the machine that runs this code.

  The emitted code is a list in which labels stand at their places; a jump goes on with the list
  from its label. The machine has the registers that the emitted code uses: RESULT (r10d), eax, ecx
  and METHOD_ADDRESS (r14d), the flags CF and ZF, BRANCH_HOLDER (r15) with rax where both hold code
  addresses, and the index of the parameter that PARAMETERS (r12) points to. JITState::carry_flag
  is only written by `setc`, so it is a Boolean.

  What the called functions leave in the scratch registers, the low halves of the pointers and the
  words behind the parameters are given by `Native`.
-/
import Yuzu.VideoCore.Macro

namespace Yuzu.VideoCore.Macro

/-! ## 1. The emitted instructions -/

/-- The 32-bit registers in use. -/
inductive Reg32 where
  | result
  | eax
  | ecx
  | methodAddress
  deriving DecidableEq, Repr

/-- The second operand of an instruction. -/
inductive Operand where
  | reg (r : Reg32)
  | imm (value : BitVec 32)

/-- The instructions that compute. -/
inductive Instr where
  | mov (dst : Reg32) (src : Operand)
  /-- `mov dst, dword[STATE + registers + index * 4]`. -/
  | load (dst : Reg32) (index : BitVec 3)
  /-- `mov dword[STATE + registers + index * 4], src`. -/
  | store (index : BitVec 3) (src : Reg32)
  | add (dst : Reg32) (src : Operand)
  | adc (dst : Reg32) (src : Operand)
  | sub (dst : Reg32) (src : Operand)
  | sbb (dst : Reg32) (src : Operand)
  | xor (dst : Reg32) (src : Operand)
  | or (dst : Reg32) (src : Operand)
  | and (dst : Reg32) (src : Operand)
  | not (dst : Reg32)
  | inc (dst : Reg32)
  | shr (dst : Reg32) (count : Nat)
  | shl (dst : Reg32) (count : Nat)
  | shrCl (dst : Reg32)
  | shlCl (dst : Reg32)
  | test (dst : Reg32) (value : BitVec 32)
  /-- `lea dst, ptr[base + index]`. -/
  | lea (dst base index : Reg32)
  /-- `setc byte[STATE + carry_flag]`. -/
  | setc
  /-- `bt dword[STATE + carry_flag], 0`. -/
  | bt
  /-- `mov rax, qword[STATE]`. -/
  | movMaxwell3d
  /-- `mov RESULT, dword[rax + reg_array + RESULT * 4]`. -/
  | movRegArray
  /-- The call of `Send`, with the caller-saved registers pushed and popped around it. -/
  | callSend (value : Reg32)
  /-- The code of `Compile_FetchParameter`. -/
  | fetchParameter
  /-- The code of `Compile_Send` after the call, down to `dont_process`. -/
  | processMethodAddress

/-- The places of the code that are jumped to. -/
inductive Label where
  | instr (pc : Int)
  | delaySkip (pc : Nat)
  | branchEnd (pc : Nat)
  | handlePostExit (pc : Nat)
  | skip (pc : Nat)
  | noDelaySlot (pc : Nat)
  | endOfCode
  deriving DecidableEq, Repr

/-- **The emitted code**: labels, computing instructions, and the control code around them. -/
inductive Asm where
  | label (l : Label)
  | instr (i : Instr)
  /-- `cmp eax, 0`. -/
  | cmpEax
  | je (l : Label)
  | jne (l : Label)
  | jmp (l : Label)
  /-- `jmp rax`. -/
  | jmpRax
  /-- `mov rax, l`. -/
  | movRax (l : Label)
  /-- `mov rax, BRANCH_HOLDER`. -/
  | movRaxHolder
  /-- `mov BRANCH_HOLDER, l`. -/
  | movHolder (l : Label)
  /-- `xor BRANCH_HOLDER, BRANCH_HOLDER`. -/
  | xorHolder
  /-- `inc BRANCH_HOLDER`. -/
  | incHolder
  /-- `test BRANCH_HOLDER, BRANCH_HOLDER`. -/
  | testHolder
  /-- `cmove BRANCH_HOLDER, rax`. -/
  | cmoveHolder

def Asm.isLabel (l : Label) : Asm → Bool
  | .label l' => l' == l
  | _ => false

/-! ## 2. The compiler -/

/-- `OptimizerState`, without the disabled run-time assertions. -/
structure OptimizerState where
  canSkipCarry : Bool
  hasDelayedPc : Bool
  zeroRegSkip : Bool
  skipDummyAddimmediate : Bool
  optimizeForMethodMove : Bool

/-- Whether an opcode uses the carry flag. -/
def Opcode.usesCarry (opcode : Opcode) : Bool :=
  opcode.operation == .alu &&
    (opcode.aluOperation == .addWithCarry || opcode.aluOperation == .subtractWithBorrow)

/-- Whether an opcode is a branch with a delay slot. -/
def Opcode.delaysPc (opcode : Opcode) : Bool :=
  opcode.operation == .branch && !opcode.branchAnnul

/-- The optimizer of `Compile`: three flags are set, two are those of `Optimizer_ScanFlags`. -/
def scanFlags (code : List Opcode) : OptimizerState :=
  ⟨!code.any Opcode.usesCarry, code.any Opcode.delaysPc, true, true, true⟩

/-- `Compile_GetRegister`. -/
def compileGetRegister (index : BitVec 3) (dst : Reg32) : List Instr :=
  if index = 0 then [.xor dst (.reg dst)] else [.load dst index]

/-- `SetRegister` of `Compile_ProcessResult`. -/
def compileSetRegister (regIndex : BitVec 3) (src : Reg32) : List Instr :=
  if regIndex = 0 then [] else [.store regIndex src]

/-- `SetMethodAddress` of `Compile_ProcessResult`. -/
def compileSetMethodAddress (reg32 : Reg32) : List Instr := [.mov .methodAddress (.reg reg32)]

/-- `Compile_Send`. -/
def compileSend (value : Reg32) : List Instr := [.callSend value, .processMethodAddress]

/-- `Compile_ProcessResult`. A parameter is fetched into eax. -/
def compileProcessResult (operation : ResultOperation) (reg : BitVec 3) : List Instr :=
  match operation with
  | .ignoreAndFetch => .fetchParameter :: compileSetRegister reg .eax
  | .move => compileSetRegister reg .result
  | .moveAndSetMethod => compileSetRegister reg .result ++ compileSetMethodAddress .result
  | .fetchAndSend => .fetchParameter :: (compileSetRegister reg .eax ++ compileSend .result)
  | .moveAndSend => compileSetRegister reg .result ++ compileSend .result
  | .fetchAndSetMethod =>
    .fetchParameter :: (compileSetRegister reg .eax ++ compileSetMethodAddress .result)
  | .moveAndSetMethodFetchAndSend =>
    compileSetRegister reg .result ++ compileSetMethodAddress .result ++ .fetchParameter :: compileSend .eax
  | .moveAndSetMethodSend =>
    compileSetRegister reg .result ++ compileSetMethodAddress .result ++
      [.shr .result 12, .and .result (.imm 0b111111)] ++ compileSend .result

/-- The registers that `Compile_ALU` loads. -/
def compileALUSources (optimizer : OptimizerState) (opcode : Opcode) : List Instr :=
  let noZeroRegSkip :=
    opcode.aluOperation == .addWithCarry || opcode.aluOperation == .subtractWithBorrow
  if !optimizer.zeroRegSkip || noZeroRegSkip then
    compileGetRegister opcode.srcA .result ++ compileGetRegister opcode.srcB .eax
  else
    (if opcode.srcA ≠ 0 then compileGetRegister opcode.srcA .result else []) ++
      (if opcode.srcB ≠ 0 then compileGetRegister opcode.srcB .eax else [])

/-- The switch of `Compile_ALU`. A `Reg32` that was not assigned is register 0, and that is eax,
    the register in which `src_b` is when it was assigned. -/
def compileALUOperation (optimizer : OptimizerState) (opcode : Opcode) : List Instr :=
  let isAZero := opcode.srcA == 0
  let isBZero := opcode.srcB == 0
  let validOperation := !isAZero && !isBZero
  let hasZeroRegister := isAZero || isBZero
  let emitted := !optimizer.zeroRegSkip || validOperation
  match opcode.aluOperation with
  | .add =>
    (if emitted then [.add .result (.reg .eax)] else []) ++
      (if !optimizer.canSkipCarry then [.setc] else [])
  | .addWithCarry => [.bt, .adc .result (.reg .eax), .setc]
  | .subtract =>
    (if emitted then [.sub .result (.reg .eax)] else []) ++
      (if !optimizer.canSkipCarry && emitted then [.setc] else [])
  | .subtractWithBorrow => [.bt, .sbb .result (.reg .eax), .setc]
  | .xor => if emitted then [.xor .result (.reg .eax)] else []
  | .or => if emitted then [.or .result (.reg .eax)] else []
  | .and =>
    if !optimizer.zeroRegSkip || !hasZeroRegister then [.and .result (.reg .eax)] else []
  | .andNot =>
    if !optimizer.zeroRegSkip || !isAZero then [.not .eax, .and .result (.reg .eax)] else []
  | .nand =>
    if !optimizer.zeroRegSkip || !isAZero then [.and .result (.reg .eax), .not .result] else []
  | .invalid => []

/-- `Compile_ALU`. -/
def compileALU (optimizer : OptimizerState) (opcode : Opcode) : List Instr :=
  compileALUSources optimizer opcode ++ compileALUOperation optimizer opcode ++
    compileProcessResult opcode.resultOperation opcode.dst

/-- The code of `Compile_AddImmediate` and `Compile_Read` that adds the immediate. An immediate
    of 2 is neither above 2 nor 1. -/
def compileImmediate (optimizer : OptimizerState) (opcode : Opcode) : List Instr :=
  if optimizer.zeroRegSkip && opcode.srcA == 0 then
    if opcode.immediate = 0 then [.xor .result (.reg .result)]
    else [.mov .result (.imm opcode.immediate)]
  else
    compileGetRegister opcode.srcA .result ++
      if opcode.immediate.toInt > 2 then [.add .result (.imm opcode.immediate)]
      else if opcode.immediate.toInt = 1 then [.inc .result]
      else if opcode.immediate.toInt < 0 then [.sub .result (.imm (-opcode.immediate))]
      else []

/-- Whether `Compile_AddImmediate` takes a method move for redundant. -/
def redundantMove (optimizer : OptimizerState) (nextOpcode : Option Opcode) (opcode : Opcode) :
    Bool :=
  optimizer.optimizeForMethodMove && opcode.resultOperation == .moveAndSetMethod &&
    nextOpcode.any fun next =>
      next.resultOperation == .moveAndSetMethod && opcode.dst == next.dst

/-- `Compile_AddImmediate`. -/
def compileAddImmediate (optimizer : OptimizerState) (nextOpcode : Option Opcode)
    (opcode : Opcode) : List Instr :=
  if optimizer.skipDummyAddimmediate && opcode.resultOperation == .move && opcode.dst == 0 then []
  else if redundantMove optimizer nextOpcode opcode then []
  else
    compileImmediate optimizer opcode ++ compileProcessResult opcode.resultOperation opcode.dst

/-- `Compile_ExtractInsert`. -/
def compileExtractInsert (opcode : Opcode) : List Instr :=
  compileGetRegister opcode.srcA .result ++ compileGetRegister opcode.srcB .eax ++
    [Instr.and .result (.imm (~~~(opcode.getBitfieldMask <<< opcode.bfDstBit))), .shr .eax opcode.bfSrcBit,
      .and .eax (.imm opcode.getBitfieldMask),
      .shl .eax opcode.bfDstBit,
      .or .result (.reg .eax)] ++
    compileProcessResult opcode.resultOperation opcode.dst

/-- `Compile_ExtractShiftLeftImmediate`. -/
def compileExtractShiftLeftImmediate (opcode : Opcode) : List Instr :=
  compileGetRegister opcode.srcA .ecx ++ compileGetRegister opcode.srcB .result ++ [Instr.shrCl .result,
      .and .result (.imm opcode.getBitfieldMask),
      .shl .result opcode.bfDstBit] ++
    compileProcessResult opcode.resultOperation opcode.dst

/-- `Compile_ExtractShiftLeftRegister`. -/
def compileExtractShiftLeftRegister (opcode : Opcode) : List Instr :=
  compileGetRegister opcode.srcA .ecx ++ compileGetRegister opcode.srcB .result ++
    [Instr.shr .result opcode.bfSrcBit, .and .result (.imm opcode.getBitfieldMask), .shlCl .result] ++
    compileProcessResult opcode.resultOperation opcode.dst

/-- `Compile_Read`. -/
def compileRead (optimizer : OptimizerState) (opcode : Opcode) : List Instr :=
  compileImmediate optimizer opcode ++ [.movMaxwell3d, .movRegArray] ++
    compileProcessResult opcode.resultOperation opcode.dst

/-- `jump_address` of `Compile_Branch`: an index into the labels. -/
def jumpAddress (pc : Nat) (opcode : Opcode) : Int := pc + opcode.getBranchTarget / 4

/-- The code of a taken branch where branches may be pending. -/
def compileDelayedBranch (pc : Nat) (opcode : Opcode) : List Asm :=
  if opcode.branchAnnul then [.xorHolder, .jmp (.instr (jumpAddress pc opcode))]
  else
    [.jmp (.skip pc), .label (.handlePostExit pc), .xorHolder, .jmp (.instr (jumpAddress pc opcode)),
      .label (.skip pc),
      .movHolder (.handlePostExit pc),
      .jmp (.delaySkip pc)]

/-- The conditional jump of a branch, and the code of the taken one. -/
def compileCondition (optimizer : OptimizerState) (pc : Nat) (opcode : Opcode) : List Asm :=
  if optimizer.hasDelayedPc then
    match opcode.branchCondition with
    | .zero => .jne (.branchEnd pc) :: compileDelayedBranch pc opcode
    | .notZero => .je (.branchEnd pc) :: compileDelayedBranch pc opcode
  else
    match opcode.branchCondition with
    | .zero => [.je (.instr (jumpAddress pc opcode))]
    | .notZero => [.jne (.instr (jumpAddress pc opcode))]

/-- `Compile_Branch`. -/
def compileBranch (optimizer : OptimizerState) (pc : Nat) (opcode : Opcode) : List Asm :=
  (compileGetRegister opcode.srcA .eax).map Asm.instr ++
    (Asm.cmpEax :: (compileCondition optimizer pc opcode ++ [Asm.label (.branchEnd pc)]))

/-- The switch of `Compile_NextInstruction`. -/
def compileOperation (optimizer : OptimizerState) (pc : Nat) (nextOpcode : Option Opcode)
    (opcode : Opcode) : List Asm :=
  match opcode.operation with
  | .alu => (compileALU optimizer opcode).map .instr
  | .addImmediate => (compileAddImmediate optimizer nextOpcode opcode).map .instr
  | .extractInsert => (compileExtractInsert opcode).map .instr
  | .extractShiftLeftImmediate => (compileExtractShiftLeftImmediate opcode).map .instr
  | .extractShiftLeftRegister => (compileExtractShiftLeftRegister opcode).map .instr
  | .read => (compileRead optimizer opcode).map .instr
  | .unused => []
  | .branch => compileBranch optimizer pc opcode

/-- The code of `Compile_NextInstruction` behind the switch: the pending branch or exit. -/
def compilePending (optimizer : OptimizerState) (pc : Nat) (opcode : Opcode) : List Asm :=
  if optimizer.hasDelayedPc then
    if opcode.isExit then
      [.movRax .endOfCode, .testHolder, .cmoveHolder, .je (.instr (pc + 1)), .label (.delaySkip pc)]
    else
      [.testHolder, .je (.noDelaySlot pc), .movRaxHolder, .xorHolder, .jmpRax,
        .label (.noDelaySlot pc), .label (.delaySkip pc)]
  else if opcode.isExit then [.testHolder, .jne .endOfCode, .incHolder]
  else [.testHolder, .jne .endOfCode]

/-- `Compile_NextInstruction`. -/
def compileNextInstruction (optimizer : OptimizerState) (pc : Nat) (nextOpcode : Option Opcode)
    (opcode : Opcode) : List Asm :=
  .label (.instr pc) ::
    (compileOperation optimizer pc nextOpcode opcode ++ compilePending optimizer pc opcode)

/-- The loop of `Compile`, from an instruction on. -/
def compileFrom (optimizer : OptimizerState) : Nat → List Opcode → List Asm
  | _, [] => [.label .endOfCode]
  | pc, opcode :: rest =>
    compileNextInstruction optimizer pc rest.head? opcode ++ compileFrom optimizer (pc + 1) rest

/-- **`Compile`**: the code between the prologue and the epilogue. -/
def compile (code : List Opcode) : List Asm := compileFrom (scanFlags code) 0 code

/-! ## 3. The machine -/

/-- What a call leaves in the scratch registers and the flags. -/
structure Scratch where
  eax : BitVec 32
  ecx : BitVec 32
  cf : Bool
  zf : Bool

/-- The host the code runs on. -/
structure Native where
  /-- After `Send` or `WarnInvalidParameter`, for the calls so far. -/
  scratch : List Call → Scratch
  /-- The low half of the pointer to the engine. -/
  maxwell3d : BitVec 32
  /-- The low half of a code address. -/
  address : Label → BitVec 32
  /-- The word behind the parameters that a pointer too large reads. -/
  stray : Nat → BitVec 32

/-- The registers, the flags and `JITState`. -/
structure JitData where
  regs : Reg32 → BitVec 32
  cf : Bool
  zf : Bool
  parameter : Nat
  registers : BitVec 3 → BitVec 32
  carryFlag : Bool
  calls : List Call

namespace JitData

def setReg (r : Reg32) (value : BitVec 32) (d : JitData) : JitData :=
  { d with regs := Function.update d.regs r value }

def setFlags (cf zf : Bool) (d : JitData) : JitData := { d with cf := cf, zf := zf }

def operand (d : JitData) : Operand → BitVec 32
  | .reg r => d.regs r
  | .imm value => value

/-- An instruction that writes a result and the flags. -/
def arith (dst : Reg32) (value : BitVec 32) (cf : Bool) (d : JitData) : JitData :=
  (d.setReg dst value).setFlags cf (value == 0)

def clobber (native : Native) (d : JitData) : JitData :=
  let s := native.scratch d.calls
  ((d.setReg .eax s.eax).setReg .ecx s.ecx).setFlags s.cf s.zf

/-- A shift to the right: a count of zero leaves the flags. -/
def shiftRight (dst : Reg32) (count : Nat) (d : JitData) : JitData :=
  if count = 0 then d
  else d.arith dst (d.regs dst >>> count) ((d.regs dst).getLsbD (count - 1))

def shiftLeft (dst : Reg32) (count : Nat) (d : JitData) : JitData :=
  if count = 0 then d
  else d.arith dst (d.regs dst <<< count) ((d.regs dst).getLsbD (32 - count))

/-- One instruction, those apart that stand for several. -/
def execBasic (env : Env) (native : Native) (i : Instr) (d : JitData) : JitData :=
  match i with
  | .mov dst src => d.setReg dst (d.operand src)
  | .load dst index => d.setReg dst (d.registers index)
  | .store index src => { d with registers := Function.update d.registers index (d.regs src) }
  | .add dst src =>
    d.arith dst (d.regs dst + d.operand src) (decide (2 ^ 32 ≤ (d.regs dst).toNat + (d.operand src).toNat))
  | .adc dst src =>
    d.arith dst (d.regs dst + d.operand src + (if d.cf then 1 else 0))
      (decide (2 ^ 32 ≤ (d.regs dst).toNat + (d.operand src).toNat + (if d.cf then 1 else 0)))
  | .sub dst src =>
    d.arith dst (d.regs dst - d.operand src) (decide ((d.regs dst).toNat < (d.operand src).toNat))
  | .sbb dst src =>
    d.arith dst (d.regs dst - d.operand src - (if d.cf then 1 else 0))
      (decide ((d.regs dst).toNat < (d.operand src).toNat + (if d.cf then 1 else 0)))
  | .xor dst src => d.arith dst (d.regs dst ^^^ d.operand src) false
  | .or dst src => d.arith dst (d.regs dst ||| d.operand src) false
  | .and dst src => d.arith dst (d.regs dst &&& d.operand src) false
  | .not dst => d.setReg dst (~~~d.regs dst)
  | .inc dst => (d.setReg dst (d.regs dst + 1)).setFlags d.cf (d.regs dst + 1 == 0)
  | .shr dst count => d.shiftRight dst (count % 32)
  | .shl dst count => d.shiftLeft dst (count % 32)
  | .shrCl dst => d.shiftRight dst ((d.regs .ecx).toNat % 32)
  | .shlCl dst => d.shiftLeft dst ((d.regs .ecx).toNat % 32)
  | .test dst value => d.setFlags false (d.regs dst &&& value == 0)
  | .lea dst base index => d.setReg dst (d.regs base + d.regs index)
  | .setc => { d with carryFlag := d.cf }
  | .bt => { d with cf := d.carryFlag }
  | .movMaxwell3d => d.setReg .eax native.maxwell3d
  | .movRegArray => d.setReg .result (env.getRegisterValue d.calls (d.regs .result))
  | .callSend value =>
    let call : Call := ⟨methodOf (d.regs .methodAddress), d.regs value⟩
    JitData.clobber native { d with calls := d.calls ++ [call] }
  | .fetchParameter | .processMethodAddress => d

/-- The code of `Compile_FetchParameter`: a pointer past the end is warned about and read. -/
def fetchParameter (env : Env) (native : Native) (d : JitData) : JitData :=
  let d := if d.parameter < env.params.length then d else d.clobber native
  { d.setReg .eax (env.params.getD d.parameter (native.stray d.parameter)) with
    parameter := d.parameter + 1
    cf := false
    zf := false }

/-- The code of `Compile_Send` between `je(dont_process)` and its label. -/
def methodAddressCode : List Instr :=
  [.mov .ecx (.reg .methodAddress), .and .methodAddress (.imm 0xfff), .shr .ecx 12, .and .ecx (.imm 0x3f),
    .lea .eax .ecx .methodAddress,
    .shl .ecx 12,
    .or .eax (.reg .ecx),
    .mov .methodAddress (.reg .eax)]

/-- The code of `Compile_Send` after the call. -/
def processMethodAddress (env : Env) (native : Native) (d : JitData) : JitData :=
  let d := d.execBasic env native (.test .methodAddress 0x3f000)
  if d.zf then d else methodAddressCode.foldl (fun d i => d.execBasic env native i) d

/-- **One computing instruction**. -/
def exec (env : Env) (native : Native) (i : Instr) (d : JitData) : JitData :=
  match i with
  | .fetchParameter => d.fetchParameter env native
  | .processMethodAddress => d.processMethodAddress env native
  | _ => d.execBasic env native i

/-- The state after the prologue, which fetches the first parameter into register 1. -/
def init (env : Env) (native : Native) : JitData :=
  let d : JitData := ⟨fun _ => 0, false, false, 0, fun _ => 0, false, []⟩
  (d.fetchParameter env native).execBasic env native (.store 1 .eax)

end JitData

/-- What BRANCH_HOLDER holds: a number, or the address of a label. -/
inductive Holder where
  | num (n : Nat)
  | addr (l : Label)
  deriving DecidableEq, Repr

/-- `inc`; the code that counts puts no address there. -/
def Holder.inc : Holder → Holder
  | .num n => .num (n + 1)
  | .addr l => .addr l

/-- The machine: the code from where it runs, and the log of the instructions it passed. -/
structure Jit where
  rest : List Asm
  holder : Holder
  rax : Option Holder
  data : JitData
  branches : Nat
  executed : List Int

namespace Jit

def init (env : Env) (native : Native) : Jit :=
  ⟨compile env.code, .num 0, none, .init env native, 0, []⟩

/-- A jump. A label without a place makes the assembler refuse the code. -/
def jump (env : Env) (l : Label) (s : Jit) : Jit :=
  { s with rest := (compile env.code).dropWhile fun a => !a.isLabel l }

/-- The log: control passes the place of a macro instruction, whose code may be empty. -/
def pass (l : Label) (s : Jit) : Jit :=
  match l with
  | .instr pc => { s with executed := s.executed ++ [pc] }
  | _ => s

/-- One instruction of the emitted code, `s.rest` being what follows it. -/
def exec (env : Env) (native : Native) (a : Asm) (s : Jit) : Jit :=
  match a with
  | .label l => s.pass l
  | .instr i => { s with data := s.data.exec env native i, rax := none }
  | .cmpEax =>
    { s with
      data := s.data.setFlags false (env.branchValue s.branches (s.data.regs .eax) == 0)
      branches := s.branches + 1 }
  | .je l => if s.data.zf then s.jump env l else s
  | .jne l => if s.data.zf then s else s.jump env l
  | .jmp l => s.jump env l
  | .jmpRax =>
    match s.rax with
    | some (.addr l) => s.jump env l
    | _ => { s with rest := [] }
  | .movRax l => { s with rax := some (.addr l), data := s.data.setReg .eax (native.address l) }
  | .movRaxHolder =>
    { s with
      rax := some s.holder
      data := s.data.setReg .eax
        (match s.holder with
          | .num n => BitVec.ofNat 32 n
          | .addr l => native.address l) }
  | .movHolder l => { s with holder := .addr l }
  | .xorHolder => { s with holder := .num 0, data := s.data.setFlags false true }
  | .incHolder => { s with holder := s.holder.inc, data := s.data.setFlags s.data.cf false }
  | .testHolder => { s with data := s.data.setFlags false (s.holder == .num 0) }
  | .cmoveHolder => if s.data.zf then { s with holder := s.rax.getD (.num 0) } else s

/-- **One step**; the machine has returned when no code is left. -/
def step (env : Env) (native : Native) (s : Jit) : Jit :=
  match s.rest with
  | [] => s
  | a :: rest => exec env native a { s with rest := rest }

/-- **`Execute`**: the state after some steps. -/
def execute (env : Env) (native : Native) (steps : Nat) : Jit :=
  (step env native)^[steps] (init env native)

theorem execute_returned {env : Env} {native : Native} {n : Nat}
    (h : (execute env native n).rest = []) (m : Nat) :
    execute env native (n + m) = execute env native n := by
  induction m with
  | zero => rfl
  | succ m ih =>
    have hnext : execute env native (n + (m + 1)) = step env native (execute env native (n + m)) :=
      Function.iterate_succ_apply' _ _ _
    rw [hnext, ih, step, h]

end Jit

end Yuzu.VideoCore.Macro
