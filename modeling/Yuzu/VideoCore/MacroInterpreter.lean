/-
  File:      Yuzu/VideoCore/MacroInterpreter.lean
  Subject:   MacroInterpreterImpl (video_core/macro/macro_interpreter.cpp).

  The program counter is a number of bytes without wrap-around: one outside the code is outside
  the code either way. `Step` calls itself for a delay slot, so it is fuelled; a fetch from outside
  the code, which the source asserts against, stops the run. The log of the executed instructions
  and the count of the executed branches are no part of the source.
-/
import Yuzu.VideoCore.Macro

namespace Yuzu.VideoCore.Macro

/-! ## 1. Registers, parameters and calls -/

/-- The members of `MacroInterpreterImpl` that its arithmetic uses. -/
structure InterpreterData where
  registers : BitVec 3 → BitVec 32
  methodAddress : BitVec 32
  nextParameterIndex : Nat
  carryFlag : Bool
  calls : List Call

namespace InterpreterData

/-- `SetRegister`: register 0 is never written. -/
def setRegister (registerId : BitVec 3) (value : BitVec 32) (d : InterpreterData) :
    InterpreterData :=
  if registerId = 0 then d
  else { d with registers := Function.update d.registers registerId value }

/-- `SetMethodAddress`. -/
def setMethodAddress (address : BitVec 32) (d : InterpreterData) : InterpreterData :=
  { d with methodAddress := address }

/-- `Send`: the call, then the increment of the address within its 12 bits. -/
def send (value : BitVec 32) (d : InterpreterData) : InterpreterData :=
  { d with
    calls := d.calls ++ [⟨methodOf d.methodAddress, value⟩]
    methodAddress := assignMethod d.methodAddress
      (methodOf d.methodAddress + (incrementOf d.methodAddress).setWidth 12) }

/-- The parameter `FetchParameter` returns. -/
def parameter (env : Env) (d : InterpreterData) : BitVec 32 :=
  env.params.getD d.nextParameterIndex (env.stray d.nextParameterIndex)

/-- What `FetchParameter` does to the index. -/
def fetched (d : InterpreterData) : InterpreterData :=
  { d with nextParameterIndex := d.nextParameterIndex + 1 }

/-- The result of `GetALUResult`, in the arithmetic of `u64`. -/
def aluResult (operation : ALUOperation) (srcA srcB : BitVec 32) (carryFlag : Bool) : BitVec 32 :=
  match operation with
  | .add => (srcA.setWidth 64 + srcB.setWidth 64).setWidth 32
  | .addWithCarry =>
    (srcA.setWidth 64 + srcB.setWidth 64 + (if carryFlag then 1 else 0)).setWidth 32
  | .subtract => (srcA.setWidth 64 - srcB.setWidth 64).setWidth 32
  | .subtractWithBorrow =>
    (srcA.setWidth 64 - srcB.setWidth 64 - (if carryFlag then 0 else 1)).setWidth 32
  | .xor => srcA ^^^ srcB
  | .or => srcA ||| srcB
  | .and => srcA &&& srcB
  | .andNot => srcA &&& ~~~srcB
  | .nand => ~~~(srcA &&& srcB)
  | .invalid => 0

/-- The carry flag after `GetALUResult`: a subtraction sets it when nothing was borrowed. -/
def aluCarry (operation : ALUOperation) (srcA srcB : BitVec 32) (carryFlag : Bool) : Bool :=
  match operation with
  | .add => decide (0xffffffff < srcA.setWidth 64 + srcB.setWidth 64)
  | .addWithCarry =>
    decide (0xffffffff < srcA.setWidth 64 + srcB.setWidth 64 + (if carryFlag then 1 else 0))
  | .subtract => decide (srcA.setWidth 64 - srcB.setWidth 64 < 0x100000000)
  | .subtractWithBorrow =>
    decide (srcA.setWidth 64 - srcB.setWidth 64 - (if carryFlag then 0 else 1) < 0x100000000)
  | _ => carryFlag

/-- `ProcessResult`. -/
def processResult (env : Env) (operation : ResultOperation) (reg : BitVec 3) (result : BitVec 32)
    (d : InterpreterData) : InterpreterData :=
  match operation with
  | .ignoreAndFetch => d.fetched.setRegister reg (d.parameter env)
  | .move => d.setRegister reg result
  | .moveAndSetMethod => (d.setRegister reg result).setMethodAddress result
  | .fetchAndSend => (d.fetched.setRegister reg (d.parameter env)).send result
  | .moveAndSend => (d.setRegister reg result).send result
  | .fetchAndSetMethod => (d.fetched.setRegister reg (d.parameter env)).setMethodAddress result
  | .moveAndSetMethodFetchAndSend =>
    let d := (d.setRegister reg result).setMethodAddress result
    d.fetched.send (d.parameter env)
  | .moveAndSetMethodSend =>
    ((d.setRegister reg result).setMethodAddress result).send (result >>> 12 &&& 0b111111#32)

/-- The result that the operation of an opcode has. A shift by a register of 32 or more is
    undefined in the source. -/
def result (env : Env) (opcode : Opcode) (d : InterpreterData) : BitVec 32 :=
  let a := d.registers opcode.srcA
  let b := d.registers opcode.srcB
  match opcode.operation with
  | .alu => aluResult opcode.aluOperation a b d.carryFlag
  | .addImmediate => a + opcode.immediate
  | .extractInsert =>
    let src := b >>> opcode.bfSrcBit &&& opcode.getBitfieldMask
    let dst := a &&& ~~~(opcode.getBitfieldMask <<< opcode.bfDstBit)
    dst ||| src <<< opcode.bfDstBit
  | .extractShiftLeftImmediate =>
    (b >>> a.toNat &&& opcode.getBitfieldMask) <<< opcode.bfDstBit
  | .extractShiftLeftRegister =>
    (b >>> opcode.bfSrcBit &&& opcode.getBitfieldMask) <<< a.toNat
  | .read => env.getRegisterValue d.calls (a + opcode.immediate)
  | .unused | .branch => 0

/-- The carry flag after the operation of an opcode. -/
def carry (opcode : Opcode) (d : InterpreterData) : Bool :=
  match opcode.operation with
  | .alu =>
    aluCarry opcode.aluOperation (d.registers opcode.srcA) (d.registers opcode.srcB) d.carryFlag
  | _ => d.carryFlag

/-- **The switch of `Step`**, branches apart. -/
def operate (env : Env) (opcode : Opcode) (d : InterpreterData) : InterpreterData :=
  match opcode.operation with
  | .unused | .branch => d
  | _ => { d with carryFlag := d.carry opcode }.processResult env opcode.resultOperation opcode.dst
      (d.result env opcode)

/-- The state of `Reset`, with the first parameter in register 1. -/
def init (env : Env) : InterpreterData :=
  ⟨Function.update (fun _ => 0) 1 (env.params.getD 0 (env.stray 0)), 0, 1, false, []⟩

end InterpreterData

/-! ## 2. Steps -/

/-- `EvaluateBranchCondition`. -/
def evaluateBranchCondition (cond : BranchCondition) (value : BitVec 32) : Bool :=
  match cond with
  | .zero => value == 0
  | .notZero => value != 0

/-- `MacroInterpreterImpl`, with the log of the instructions it executed: the index and whether
    it ran in a delay slot. -/
structure Interpreter where
  pc : Int
  delayedPc : Option Int
  data : InterpreterData
  branches : Nat
  executed : List (Int × Bool)

namespace Interpreter

def init (env : Env) : Interpreter := ⟨0, none, .init env, 0, []⟩

/-- `GetOpcode`. -/
def getOpcode (env : Env) (s : Interpreter) : Option Opcode :=
  if 0 ≤ s.pc ∧ s.pc % 4 = 0 then env.code[(s.pc / 4).toNat]? else none

/-- The opcode is fetched: the counter moves on, or to where a branch before it goes. -/
def fetch (isDelaySlot : Bool) (s : Interpreter) : Interpreter :=
  { s with
    pc := s.delayedPc.getD (s.pc + 4)
    delayedPc := none
    executed := s.executed ++ [(s.pc / 4, isDelaySlot)] }

/-- Whether an opcode is a branch that is taken. -/
def taken (env : Env) (opcode : Opcode) (s : Interpreter) : Bool :=
  opcode.operation == .branch && evaluateBranchCondition opcode.branchCondition
    (env.branchValue s.branches (s.data.registers opcode.srcA))

/-- The switch of `Step`, without where it goes. -/
def operate (env : Env) (opcode : Opcode) (s : Interpreter) : Interpreter :=
  if opcode.operation = .branch then { s with branches := s.branches + 1 }
  else { s with data := s.data.operate env opcode }

/-- **`Step`**: whether to keep running, and the state after it. -/
def step (env : Env) : Nat → Bool → Interpreter → Bool × Interpreter
  | 0, _, s => (false, s)
  | fuel + 1, isDelaySlot, s =>
    match s.getOpcode env with
    | none => (false, s)
    | some opcode =>
      let baseAddress := s.pc
      let s := s.fetch isDelaySlot
      let after := s.operate env opcode
      if s.taken env opcode then
        if opcode.branchAnnul then
          (true, { after with pc := baseAddress + opcode.getBranchTarget })
        else
          step env fuel true { after with delayedPc := some (baseAddress + opcode.getBranchTarget) }
      else if opcode.isExit && !isDelaySlot then
        -- The exit has a delay slot.
        (false, (step env fuel true after).2)
      else (true, after)

/-- One round of the loop of `Execute`. -/
def round (env : Env) (fuel : Nat) (s : Bool × Interpreter) : Bool × Interpreter :=
  if s.1 then s.2.step env fuel false else s

/-- **`Execute`**: whether it still runs after some rounds, and the state. -/
def execute (env : Env) (fuel rounds : Nat) : Bool × Interpreter :=
  (round env fuel)^[rounds] (true, init env)

theorem execute_stopped {env : Env} {fuel n : Nat} (h : (execute env fuel n).1 = false) (m : Nat) :
    execute env fuel (n + m) = execute env fuel n := by
  induction m with
  | zero => rfl
  | succ m ih =>
    have hnext : execute env fuel (n + (m + 1)) = round env fuel (execute env fuel (n + m)) :=
      Function.iterate_succ_apply' _ _ _
    rw [hnext, ih, round, if_neg (by simp [h])]

end Interpreter

end Yuzu.VideoCore.Macro
