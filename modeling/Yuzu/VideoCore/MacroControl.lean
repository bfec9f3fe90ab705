/-
  File:      Yuzu/VideoCore/MacroControl.lean
  Subject:   The order in which the interpreter and the compiled code go through a macro.

  What a branch compares is given from outside, so the registers of the two need not agree. Each
  round of the interpreter (an instruction, with its delay slot if it has one) is some steps of the
  compiled code; both begin and end it before an instruction with nothing pending.

  Where some branch of the macro has a delay slot, the compiled code checks for a pending branch or
  exit behind an instruction only if this instruction has no exit flag. So an instruction with the
  flag that runs in a delay slot is followed by the instruction behind it.
-/
import Yuzu.Lib.Simulation
import Yuzu.VideoCore.MacroInterpreter
import Yuzu.VideoCore.MacroJit

namespace Yuzu.VideoCore.Macro

open List

/-! ## 1. Where the labels are -/

/-- The instruction a label was made for. -/
def Label.pc : Label → Option Int
  | .instr pc => some pc
  | .delaySkip pc | .branchEnd pc | .handlePostExit pc | .skip pc | .noDelaySlot pc => some pc
  | .endOfCode => none

/-- The code from the place of a label on. -/
def placeOf (l : Label) (code : List Asm) : List Asm := code.dropWhile fun a => !a.isLabel l

theorem placeOf_label (l l' : Label) (code : List Asm) :
    placeOf l (.label l' :: code) = if l' = l then .label l' :: code else placeOf l code := by
  by_cases h : l' = l <;> simp [placeOf, Asm.isLabel, h]

variable {l : Label}

theorem placeOf_other {a : Asm} (ha : a.isLabel l = false) (code : List Asm) :
    placeOf l (a :: code) = placeOf l code := by
  simp [placeOf, ha]

theorem placeOf_append {code : List Asm} (h : ∀ a ∈ code, a.isLabel l = false)
    (rest : List Asm) : placeOf l (code ++ rest) = placeOf l rest :=
  dropWhile_append_of_pos fun a ha => by simp [h a ha]

theorem isLabel_instrs (l : Label) (is : List Instr) : ∀ a ∈ is.map Asm.instr, a.isLabel l = false := by
  intro a ha
  obtain ⟨i, -, rfl⟩ := mem_map.mp ha
  rfl

section Places

variable (optimizer : OptimizerState)

/-- The computing instructions of an opcode that is no branch. -/
def compileInstrs (nextOpcode : Option Opcode) (opcode : Opcode) : List Instr :=
  match opcode.operation with
  | .alu => compileALU optimizer opcode
  | .addImmediate => compileAddImmediate optimizer nextOpcode opcode
  | .extractInsert => compileExtractInsert opcode
  | .extractShiftLeftImmediate => compileExtractShiftLeftImmediate opcode
  | .extractShiftLeftRegister => compileExtractShiftLeftRegister opcode
  | .read => compileRead optimizer opcode
  | .unused | .branch => []

variable {opcode : Opcode}

theorem compileOperation_instrs (pc : Nat) (nextOpcode : Option Opcode) (h : opcode.operation ≠ .branch) :
    compileOperation optimizer pc nextOpcode opcode =
      (compileInstrs optimizer nextOpcode opcode).map .instr := by
  unfold compileOperation compileInstrs
  cases hop : opcode.operation with
  | branch => exact absurd hop h
  | _ => rfl

theorem compileOperation_branch (pc : Nat) (nextOpcode : Option Opcode) (h : opcode.operation = .branch) :
    compileOperation optimizer pc nextOpcode opcode = compileBranch optimizer pc opcode := by
  rw [compileOperation, h]

theorem isLabel_compileCondition {pc : Nat} (hp : Label.handlePostExit pc ≠ l) (hs : Label.skip pc ≠ l) :
    ∀ a ∈ compileCondition optimizer pc opcode, a.isLabel l = false := by
  unfold compileCondition compileDelayedBranch
  split <;> split <;> (try split) <;> simp [Asm.isLabel, hp, hs]

theorem isLabel_compileOperation {pc : Nat} {nextOpcode : Option Opcode}
    (hp : Label.handlePostExit pc ≠ l) (hs : Label.skip pc ≠ l)
    (he : Label.branchEnd pc ≠ l) :
    ∀ a ∈ compileOperation optimizer pc nextOpcode opcode, a.isLabel l = false := by
  by_cases hop : opcode.operation = .branch
  · intro a ha
    rw [compileOperation_branch optimizer pc nextOpcode hop, compileBranch] at ha
    simp only [mem_append, mem_cons, not_mem_nil, or_false] at ha
    rcases ha with ha | rfl | ha | rfl
    · exact isLabel_instrs l _ a ha
    · rfl
    · exact isLabel_compileCondition optimizer hp hs a ha
    · simp [Asm.isLabel, he]
  · rw [compileOperation_instrs optimizer pc nextOpcode hop]
    exact isLabel_instrs l _

theorem isLabel_compilePending {pc : Nat} (hl : l.pc ≠ some ↑pc) :
    ∀ a ∈ compilePending optimizer pc opcode, a.isLabel l = false := by
  have hn : Label.noDelaySlot pc ≠ l := fun e => hl (e ▸ rfl)
  have hd : Label.delaySkip pc ≠ l := fun e => hl (e ▸ rfl)
  unfold compilePending
  split <;> split <;> simp [Asm.isLabel, hn, hd]

theorem isLabel_compileNextInstruction {pc : Nat} {nextOpcode : Option Opcode} (hl : l.pc ≠ some ↑pc) :
    ∀ a ∈ compileNextInstruction optimizer pc nextOpcode opcode, a.isLabel l = false := by
  have hi : Label.instr pc ≠ l := fun e => hl (e ▸ rfl)
  have hp : Label.handlePostExit pc ≠ l := fun e => hl (e ▸ rfl)
  have hs : Label.skip pc ≠ l := fun e => hl (e ▸ rfl)
  have he : Label.branchEnd pc ≠ l := fun e => hl (e ▸ rfl)
  intro a ha
  simp only [compileNextInstruction, mem_cons, mem_append] at ha
  rcases ha with rfl | ha | ha
  · simp [Asm.isLabel, hi]
  · exact isLabel_compileOperation optimizer hp hs he a ha
  · exact isLabel_compilePending optimizer hl a ha

theorem placeOf_compileFrom (code : List Opcode) (pc k : Nat) (hk : k ≤ code.length)
    (hl : ∀ j : Nat, pc ≤ j → j < pc + k → l.pc ≠ some ↑j) :
    placeOf l (compileFrom optimizer pc code) =
      placeOf l (compileFrom optimizer (pc + k) (code.drop k)) := by
  induction k generalizing pc code with
  | zero => rfl
  | succ k ih =>
    cases code with
    | nil => simp at hk
    | cons opcode code =>
      rw [compileFrom, placeOf_append (isLabel_compileNextInstruction optimizer
        (hl pc (by omega) (by omega))), ih code (pc + 1) (by simpa using hk)
        (fun j h1 h2 => hl j (by omega) (by omega)), drop_succ_cons,
        Nat.add_right_comm, Nat.add_assoc]

end Places

/-- The compiled code from an instruction on. -/
def codeFrom (code : List Opcode) (pc : Nat) : List Asm :=
  compileFrom (scanFlags code) pc (code.drop pc)

section Code

variable {code : List Opcode} {pc : Nat} {opcode : Opcode}

theorem codeFrom_cons (h : code[pc]? = some opcode) : codeFrom code pc = .label (.instr pc) ::
      (compileOperation (scanFlags code) pc code[pc + 1]? opcode ++
        (compilePending (scanFlags code) pc opcode ++ codeFrom code (pc + 1))) := by
  obtain ⟨hpc, rfl⟩ := List.getElem?_eq_some_iff.mp h
  rw [codeFrom, drop_eq_getElem_cons hpc, compileFrom, compileNextInstruction,
    List.head?_drop, cons_append, append_assoc]
  rfl

theorem codeFrom_end : codeFrom code code.length = [.label .endOfCode] := by
  rw [codeFrom, drop_length, compileFrom]

theorem placeOf_compile (hpc : pc ≤ code.length) (hl : ∀ j : Nat, j < pc → l.pc ≠ some ↑j) :
    placeOf l (compile code) = placeOf l (codeFrom code pc) := by
  rw [compile, placeOf_compileFrom _ code 0 pc hpc (fun j _ h => hl j (by omega)), Nat.zero_add]
  rfl

theorem placeOf_end : placeOf .endOfCode (compile code) = [.label .endOfCode] := by
  rw [placeOf_compile le_rfl (fun j _ => by simp [Label.pc]), codeFrom_end]
  rfl

theorem placeOf_instr (hpc : pc < code.length) : placeOf (.instr pc) (compile code) = codeFrom code pc := by
  rw [placeOf_compile hpc.le (fun j hj => by simp only [Label.pc]; intro e; simp at e; omega),
    codeFrom_cons (List.getElem?_eq_getElem hpc), placeOf_label, if_pos rfl]

theorem placeOf_own (h : code[pc]? = some opcode) (hl : l.pc = some ↑pc) (hne : Label.instr pc ≠ l) :
    placeOf l (compile code) = placeOf l (compileOperation (scanFlags code) pc code[pc + 1]? opcode ++
        (compilePending (scanFlags code) pc opcode ++ codeFrom code (pc + 1))) := by
  obtain ⟨hpc, -⟩ := List.getElem?_eq_some_iff.mp h
  rw [placeOf_compile hpc.le (fun j hj => by rw [hl]; intro e; simp at e; omega), codeFrom_cons h,
    placeOf_label, if_neg hne]

theorem placeOf_delaySkip (h : code[pc]? = some opcode) (hd : (scanFlags code).hasDelayedPc = true) :
    placeOf (.delaySkip pc) (compile code) = .label (.delaySkip pc) :: codeFrom code (pc + 1) := by
  rw [placeOf_own h rfl (by simp), placeOf_append (isLabel_compileOperation _ (by simp) (by simp)
    (by simp)), compilePending, if_pos hd]
  split <;> simp [placeOf, Asm.isLabel]

theorem placeOf_noDelaySlot (h : code[pc]? = some opcode)
    (hd : (scanFlags code).hasDelayedPc = true) (hx : opcode.isExit = false) :
    placeOf (.noDelaySlot pc) (compile code) =
      .label (.noDelaySlot pc) :: .label (.delaySkip pc) :: codeFrom code (pc + 1) := by
  rw [placeOf_own h rfl (by simp), placeOf_append (isLabel_compileOperation _ (by simp) (by simp)
    (by simp)), compilePending, if_pos hd, if_neg (by simp [hx])]
  simp [placeOf, Asm.isLabel]

theorem placeOf_branchEnd (h : code[pc]? = some opcode) (hb : opcode.operation = .branch) :
    placeOf (.branchEnd pc) (compile code) = .label (.branchEnd pc) ::
      (compilePending (scanFlags code) pc opcode ++ codeFrom code (pc + 1)) := by
  rw [placeOf_own h rfl (by simp), compileOperation_branch _ _ _ hb, compileBranch,
    append_assoc, placeOf_append (isLabel_instrs _ _), cons_append, placeOf_other rfl,
    append_assoc, placeOf_append (isLabel_compileCondition _ (by simp) (by simp))]
  simp [placeOf_label]

theorem placeOf_delayed (h : code[pc]? = some opcode) (hb : opcode.operation = .branch)
    (hd : (scanFlags code).hasDelayedPc = true) (ha : opcode.branchAnnul = false) :
    (∃ rest, placeOf (.skip pc) (compile code) = .label (.skip pc) ::
      .movHolder (.handlePostExit pc) :: .jmp (.delaySkip pc) :: rest) ∧
    (∃ rest, placeOf (.handlePostExit pc) (compile code) = .label (.handlePostExit pc) ::
      .xorHolder :: .jmp (.instr (jumpAddress pc opcode)) :: rest) := by
  rw [placeOf_own h rfl (by simp), placeOf_own h rfl (by simp), compileOperation_branch _ _ _ hb,
    compileBranch, compileCondition, compileDelayedBranch, if_pos hd, if_neg (by simp [ha])]
  simp only [append_assoc, placeOf_append (isLabel_instrs _ _)]
  constructor
  · cases opcode.branchCondition <;> simp [placeOf, Asm.isLabel]
  · cases opcode.branchCondition <;> simp [placeOf, Asm.isLabel]

end Code

/-! ## 2. The compiled code between instructions -/

namespace Jit

theorem jump_eq (env : Env) (l : Label) (s : Jit) :
    s.jump env l = { s with rest := placeOf l (compile env.code) } := rfl

theorem reaches_instrs (env : Env) (native : Native) (is : List Instr) (tail : List Asm)
    (holder : Holder) (rax : Option Holder) (d : JitData) (branches : Nat) (executed : List Int) :
    ∃ rax', Reaches (step env native) ⟨is.map .instr ++ tail, holder, rax, d, branches, executed⟩
      ⟨tail, holder, rax', is.foldl (fun d i => d.exec env native i) d, branches, executed⟩ := by
  induction is generalizing rax d with
  | nil => exact ⟨rax, .refl _⟩
  | cons i is ih =>
    obtain ⟨rax', h⟩ := ih none (d.exec env native i)
    exact ⟨rax', .head h⟩

/-- The machine comes to some code with some holder, whatever it computed on the way. -/
def Comes (env : Env) (native : Native) (s : Jit) (rest : List Asm) (holder : Holder)
    (branches : Nat) (executed : List Int) : Prop :=
  ∃ rax data, Reaches (step env native) s ⟨rest, holder, rax, data, branches, executed⟩

section Comes

variable {env : Env} {native : Native} {s : Jit} {rest rest' : List Asm}
  {holder holder' : Holder} {branches branches' : Nat} {executed executed' : List Int}

theorem Comes.trans (h : Comes env native s rest holder branches executed)
    (h' : ∀ rax data, Comes env native ⟨rest, holder, rax, data, branches, executed⟩
      rest' holder' branches' executed') :
    Comes env native s rest' holder' branches' executed' := by
  obtain ⟨rax, data, hr⟩ := h
  obtain ⟨rax', data', hr'⟩ := h' rax data
  exact ⟨rax', data', hr.trans hr'⟩

theorem Comes.head (h : Comes env native (step env native s) rest holder branches executed) :
    Comes env native s rest holder branches executed := by
  obtain ⟨rax, data, hr⟩ := h
  exact ⟨rax, data, hr.head⟩

theorem Comes.of_iterate (n : Nat) {rax : Option Holder} {data : JitData}
    (h : (step env native)^[n] s = ⟨rest, holder, rax, data, branches, executed⟩) :
    Comes env native s rest holder branches executed := ⟨rax, data, n, h⟩

theorem Comes.congr (h : Comes env native s rest holder branches executed) (e : rest = rest') :
    Comes env native s rest' holder branches executed := e ▸ h

variable {rax : Option Holder} {d : JitData} {pc : Nat} {opcode : Opcode} {tail : List Asm}

theorem comes_jmp (l : Label) : Comes env native ⟨.jmp l :: rest, holder, rax, d, branches, executed⟩
      (placeOf l (compile env.code)) holder branches executed := .of_iterate 1 rfl

theorem comes_end :
    Comes env native ⟨placeOf .endOfCode (compile env.code), holder, rax, d, branches, executed⟩
      [] holder branches executed := by
  rw [placeOf_end]
  exact .of_iterate 1 rfl

theorem comes_last (native : Native) (holder : Holder) (branches : Nat) (executed : List Int)
    (rax : Option Holder) (d : JitData) (hpc : pc = env.code.length) :
    Comes env native ⟨codeFrom env.code pc, holder, rax, d, branches, executed⟩
      [] holder branches executed := by
  rw [hpc, codeFrom_end]
  exact .of_iterate 1 rfl

theorem comes_operation (nextOpcode : Option Opcode) (h : opcode.operation ≠ .branch) : Comes env native
      ⟨.label (.instr pc) :: (compileOperation (scanFlags env.code) pc nextOpcode opcode ++ tail),
        holder, rax, d, branches, executed⟩
      tail holder branches (executed ++ [(pc : Int)]) := by
  rw [compileOperation_instrs _ _ _ h]
  obtain ⟨rax', hr⟩ := reaches_instrs env native
    (compileInstrs (scanFlags env.code) nextOpcode opcode) tail holder rax d branches
    (executed ++ [(pc : Int)])
  exact ⟨rax', _, .head hr⟩

/-! ### Behind an instruction -/

/-- What BRANCH_HOLDER holds when an exit is pending. -/
def exitHolder (optimizer : OptimizerState) : Holder :=
  if optimizer.hasDelayedPc then .addr .endOfCode else .num 1

theorem comes_next (h : env.code[pc]? = some opcode) (hx : opcode.isExit = false) : Comes env native
      ⟨compilePending (scanFlags env.code) pc opcode ++ codeFrom env.code (pc + 1),
        .num 0, rax, d, branches, executed⟩
      (codeFrom env.code (pc + 1)) (.num 0) branches executed := by
  rw [compilePending]
  by_cases hd : (scanFlags env.code).hasDelayedPc = true
  · rw [if_pos hd, if_neg (by simp [hx])]
    -- Nothing is pending, so the jump goes to the place behind the check.
    have hj : (step env native)^[2]
        ⟨[.testHolder, .je (.noDelaySlot pc), .movRaxHolder, .xorHolder, .jmpRax,
          .label (.noDelaySlot pc), .label (.delaySkip pc)] ++ codeFrom env.code (pc + 1),
          .num 0, rax, d, branches, executed⟩ =
        ⟨placeOf (.noDelaySlot pc) (compile env.code), .num 0, rax, d.setFlags false true,
          branches, executed⟩ := rfl
    refine (Comes.of_iterate 2 hj).trans fun rax data => ?_
    rw [placeOf_noDelaySlot h hd hx]
    exact .of_iterate 2 rfl
  · rw [if_neg hd, if_neg (by simp [hx])]
    exact .of_iterate 2 rfl

theorem comes_exit (hpc : pc + 1 < env.code.length) (hx : opcode.isExit = true) : Comes env native
      ⟨compilePending (scanFlags env.code) pc opcode ++ codeFrom env.code (pc + 1),
        .num 0, rax, d, branches, executed⟩
      (codeFrom env.code (pc + 1)) (exitHolder (scanFlags env.code)) branches executed := by
  rw [compilePending, exitHolder]
  by_cases hd : (scanFlags env.code).hasDelayedPc = true
  · rw [if_pos hd, if_pos hx, if_pos hd]
    refine Comes.congr ?_ (placeOf_instr hpc)
    exact .of_iterate 4 rfl
  · rw [if_neg hd, if_pos hx, if_neg hd]
    exact .of_iterate 3 rfl

theorem comes_pending (hd : (scanFlags env.code).hasDelayedPc = true) (hx : opcode.isExit = false)
    (l : Label) :
    Comes env native
      ⟨compilePending (scanFlags env.code) pc opcode ++ tail, .addr l, rax, d, branches, executed⟩
      (placeOf l (compile env.code)) (.num 0) branches executed := by
  rw [compilePending, if_pos hd, if_neg (by simp [hx])]
  exact .of_iterate 5 rfl

theorem comes_leave (native : Native) (pc : Nat) (tail : List Asm) (rax : Option Holder)
    (d : JitData) (branches : Nat) (executed : List Int)
    (hx : (scanFlags env.code).hasDelayedPc = true → opcode.isExit = false) :
    ∃ holder, Comes env native
      ⟨compilePending (scanFlags env.code) pc opcode ++ tail, exitHolder (scanFlags env.code),
        rax, d, branches, executed⟩
      [] holder branches executed := by
  by_cases hd : (scanFlags env.code).hasDelayedPc = true
  · rw [exitHolder, if_pos hd]
    exact ⟨.num 0, (comes_pending hd (hx hd) .endOfCode).trans fun _ _ => comes_end⟩
  · refine ⟨.num 1, ?_⟩
    rw [compilePending, exitHolder, if_neg hd, if_neg hd]
    have hj : ∀ code, (step env native)^[2]
        ⟨.testHolder :: .jne .endOfCode :: code, .num 1, rax, d, branches, executed⟩ =
        ⟨placeOf .endOfCode (compile env.code), .num 1, rax, d.setFlags false false, branches,
          executed⟩ := fun _ => rfl
    split <;> exact (Comes.of_iterate 2 (hj _)).trans fun _ _ => comes_end

/-! ### Branches -/

theorem comes_compare (native : Native) (h : env.code[pc]? = some opcode) (hb : opcode.operation = .branch)
    {value : Nat → BitVec 32} (hv : ∀ k v, env.branchValue k v = value k) :
    ∃ rax' d', d'.zf = (value branches == 0) ∧ Reaches (step env native)
        ⟨codeFrom env.code pc, holder, rax, d, branches, executed⟩
        ⟨compileCondition (scanFlags env.code) pc opcode ++ .label (.branchEnd pc) ::
          (compilePending (scanFlags env.code) pc opcode ++ codeFrom env.code (pc + 1)),
          holder, rax', d', branches + 1, executed ++ [(pc : Int)]⟩ := by
  obtain ⟨rax', hr⟩ := reaches_instrs env native (compileGetRegister opcode.srcA .eax)
    (.cmpEax :: (compileCondition (scanFlags env.code) pc opcode ++ .label (.branchEnd pc) ::
      (compilePending (scanFlags env.code) pc opcode ++ codeFrom env.code (pc + 1))))
    holder rax d branches (executed ++ [(pc : Int)])
  generalize (compileGetRegister opcode.srcA .eax).foldl (fun d i => d.exec env native i) d = loaded at hr
  refine ⟨rax', loaded.setFlags false (env.branchValue branches (loaded.regs .eax) == 0),
    congrArg (· == 0) (hv _ _), ?_⟩
  rw [codeFrom_cons h, compileOperation_branch _ _ _ hb, compileBranch]
  simp only [append_assoc, cons_append, nil_append]
  exact .head (hr.trans (.head (.refl _)))

theorem step_je (native : Native) (l : Label) :
    step env native ⟨.je l :: rest, holder, rax, d, branches, executed⟩ =
      ⟨if d.zf then placeOf l (compile env.code) else rest, holder, rax, d, branches, executed⟩ := by
  cases hz : d.zf <;> simp [step, exec, hz, jump_eq]

theorem step_jne (native : Native) (l : Label) :
    step env native ⟨.jne l :: rest, holder, rax, d, branches, executed⟩ =
      ⟨if d.zf then rest else placeOf l (compile env.code), holder, rax, d, branches, executed⟩ := by
  cases hz : d.zf <;> simp [step, exec, hz, jump_eq]

theorem comes_condition_delayed (hd : (scanFlags env.code).hasDelayedPc = true)
    {value : BitVec 32} (hz : d.zf = (value == 0)) :
    Comes env native
      ⟨compileCondition (scanFlags env.code) pc opcode ++ tail, holder, rax, d, branches, executed⟩
      (if evaluateBranchCondition opcode.branchCondition value then
        compileDelayedBranch pc opcode ++ tail
      else placeOf (.branchEnd pc) (compile env.code))
      holder branches executed := by
  rw [compileCondition, if_pos hd]
  refine ⟨rax, d, 1, ?_⟩
  cases opcode.branchCondition with
  | zero =>
    refine (step_jne native _).trans ?_
    rw [evaluateBranchCondition, ← hz]
    rfl
  | notZero =>
    refine (step_je native _).trans ?_
    rw [evaluateBranchCondition, bne, ← hz]
    cases d.zf <;> rfl

theorem comes_condition_direct (hd : (scanFlags env.code).hasDelayedPc = false)
    {value : BitVec 32} (hz : d.zf = (value == 0)) :
    Comes env native
      ⟨compileCondition (scanFlags env.code) pc opcode ++ tail, holder, rax, d, branches, executed⟩
      (if evaluateBranchCondition opcode.branchCondition value then
        placeOf (.instr (jumpAddress pc opcode)) (compile env.code)
      else tail)
      holder branches executed := by
  rw [compileCondition, if_neg (by simp [hd])]
  refine ⟨rax, d, 1, ?_⟩
  cases opcode.branchCondition with
  | zero =>
    refine (step_je native _).trans ?_
    rw [evaluateBranchCondition, ← hz]
    rfl
  | notZero =>
    refine (step_jne native _).trans ?_
    rw [evaluateBranchCondition, bne, ← hz]
    cases d.zf <;> rfl

theorem Comes.of_reaches {t : Jit} (hr : Reaches (step env native) s t)
    (h : Comes env native t rest holder branches executed) :
    Comes env native s rest holder branches executed := by
  obtain ⟨rax, data, h⟩ := h
  exact ⟨rax, data, hr.trans h⟩

variable {value : Nat → BitVec 32}

theorem comes_not_taken (h : env.code[pc]? = some opcode) (hb : opcode.operation = .branch)
    (hv : ∀ k v, env.branchValue k v = value k)
    (ht : evaluateBranchCondition opcode.branchCondition (value branches) = false) :
    Comes env native ⟨codeFrom env.code pc, holder, rax, d, branches, executed⟩
      (compilePending (scanFlags env.code) pc opcode ++ codeFrom env.code (pc + 1))
      holder (branches + 1) (executed ++ [(pc : Int)]) := by
  obtain ⟨rax', d', hz, hr⟩ := comes_compare native h hb hv
  refine .of_reaches hr ?_
  cases hd : (scanFlags env.code).hasDelayedPc with
  | true =>
    refine (comes_condition_delayed hd hz).trans fun rax data => ?_
    rw [if_neg (by simp [ht]), placeOf_branchEnd h hb]
    exact .of_iterate 1 rfl
  | false =>
    refine (comes_condition_direct hd hz).trans fun rax data => ?_
    rw [if_neg (by simp [ht])]
    exact .of_iterate 1 rfl

theorem comes_annulled (h : env.code[pc]? = some opcode) (hb : opcode.operation = .branch)
    (hv : ∀ k v, env.branchValue k v = value k)
    (ht : evaluateBranchCondition opcode.branchCondition (value branches) = true)
    (ha : opcode.branchAnnul = true) {target : Nat} (hj : jumpAddress pc opcode = target)
    (htarget : target < env.code.length) :
    Comes env native ⟨codeFrom env.code pc, .num 0, rax, d, branches, executed⟩
      (codeFrom env.code target) (.num 0) (branches + 1) (executed ++ [(pc : Int)]) := by
  obtain ⟨rax', d', hz, hr⟩ := comes_compare native h hb hv
  refine .of_reaches hr ?_
  rw [← placeOf_instr htarget, ← hj]
  cases hd : (scanFlags env.code).hasDelayedPc with
  | true =>
    refine (comes_condition_delayed hd hz).trans fun rax data => ?_
    rw [if_pos ht, compileDelayedBranch, if_pos ha]
    exact .of_iterate 2 rfl
  | false =>
    refine (comes_condition_direct hd hz).trans fun rax data => ?_
    rw [if_pos ht]
    exact .of_iterate 0 rfl

theorem comes_delayed (native : Native) (holder : Holder) (rax : Option Holder) (d : JitData)
    (executed : List Int) (h : env.code[pc]? = some opcode) (hb : opcode.operation = .branch)
    (hv : ∀ k v, env.branchValue k v = value k)
    (ht : evaluateBranchCondition opcode.branchCondition (value branches) = true)
    (ha : opcode.branchAnnul = false) (hd : (scanFlags env.code).hasDelayedPc = true) :
    Comes env native ⟨codeFrom env.code pc, holder, rax, d, branches, executed⟩
      (codeFrom env.code (pc + 1)) (.addr (.handlePostExit pc)) (branches + 1)
      (executed ++ [(pc : Int)]) := by
  obtain ⟨rax', d', hz, hr⟩ := comes_compare native h hb hv
  obtain ⟨⟨rest, hskip⟩, -⟩ := placeOf_delayed h hb hd ha
  refine .of_reaches hr ((comes_condition_delayed hd hz).trans fun rax data => ?_)
  rw [if_pos ht, compileDelayedBranch, if_neg (by simp [ha])]
  refine (comes_jmp (.skip pc)).trans fun rax data => ?_
  rw [hskip]
  refine Comes.trans (.head (.head (comes_jmp (.delaySkip pc)))) fun rax data => ?_
  rw [placeOf_delaySkip h hd]
  exact .of_iterate 1 rfl

theorem comes_handlePostExit (h : env.code[pc]? = some opcode) (hb : opcode.operation = .branch)
    (ha : opcode.branchAnnul = false) (hd : (scanFlags env.code).hasDelayedPc = true)
    {target : Nat} (hj : jumpAddress pc opcode = target) (htarget : target < env.code.length) :
    Comes env native ⟨placeOf (.handlePostExit pc) (compile env.code), holder, rax, d, branches, executed⟩
      (codeFrom env.code target) (.num 0) branches executed := by
  obtain ⟨-, rest, hplace⟩ := placeOf_delayed h hb hd ha
  rw [hplace, ← placeOf_instr htarget, ← hj]
  exact .of_iterate 3 rfl

end Comes

end Jit

/-! ## 3. The interpreter between instructions -/

namespace Interpreter

variable {env : Env} {s : Interpreter} {pc : Nat} {opcode : Opcode}

theorem getOpcode_eq (env : Env) (hpc : s.pc = 4 * (pc : Int)) : s.getOpcode env = env.code[pc]? := by
  rw [getOpcode, if_pos ⟨by omega, by omega⟩]
  congr 1
  omega

@[simp] theorem operate_pc : (s.operate env opcode).pc = s.pc := by
  unfold operate
  split <;> rfl

@[simp] theorem operate_delayedPc : (s.operate env opcode).delayedPc = s.delayedPc := by
  unfold operate
  split <;> rfl

@[simp] theorem operate_executed : (s.operate env opcode).executed = s.executed := by
  unfold operate
  split <;> rfl

theorem operate_branches : (s.operate env opcode).branches =
      if opcode.operation = .branch then s.branches + 1 else s.branches := by
  unfold operate
  split <;> rfl

theorem taken_of_ne (h : opcode.operation ≠ .branch) : s.taken env opcode = false := by
  simp [taken, h]

theorem step_slot (fuel : Nat) (h : s.getOpcode env = some opcode) (hb : opcode.operation ≠ .branch) :
    s.step env (fuel + 1) true = (true, (s.fetch true).operate env opcode) := by
  simp [step, h, taken_of_ne hb]

theorem step_plain (fuel : Nat) (h : s.getOpcode env = some opcode) (hb : opcode.operation ≠ .branch) :
    s.step env (fuel + 1) false =
      if opcode.isExit then (false, (((s.fetch false).operate env opcode).step env fuel true).2)
      else (true, (s.fetch false).operate env opcode) := by
  simp [step, h, taken_of_ne hb]

theorem fetch_prefix_of {fuel : Nat}
    (ih : ∀ slot (s : Interpreter), s.executed <+: (s.step env fuel slot).2.executed)
    (slot : Bool) (h : s.getOpcode env = some opcode) :
    (s.fetch slot).executed <+: (s.step env (fuel + 1) slot).2.executed := by
  have hafter : (s.fetch slot).executed = ((s.fetch slot).operate env opcode).executed :=
    operate_executed.symm
  simp only [step, h, hafter]
  split
  · split
    · exact prefix_refl _
    · exact ih true { (s.fetch slot).operate env opcode with
        delayedPc := some (s.pc + opcode.getBranchTarget) }
  · split
    · exact ih _ _
    · exact prefix_refl _

theorem executed_start (fuel : Nat) (slot : Bool) (s : Interpreter) :
    s.executed <+: (s.step env fuel slot).2.executed := by
  induction fuel generalizing slot s with
  | zero => exact prefix_refl _
  | succ fuel ih =>
    cases h : s.getOpcode env with
    | none =>
      rw [step, h]
    | some opcode => exact (prefix_append _ _).trans (fetch_prefix_of ih slot h)

theorem fetch_prefix (fuel : Nat) (slot : Bool) (h : s.getOpcode env = some opcode) :
    (s.fetch slot).executed <+: (s.step env (fuel + 1) slot).2.executed :=
  fetch_prefix_of (executed_start fuel) slot h

end Interpreter

/-! ## 4. The simulation -/

/-- **The macros in question**: no branch is in a delay slot, and the targets and the delay slots
    of exits are in the code. -/
structure WellFormed (code : List Opcode) : Prop where
  target : ∀ pc, (h : pc < code.length) → code[pc].operation = .branch →
    0 ≤ jumpAddress pc code[pc] ∧ jumpAddress pc code[pc] < code.length
  exitSlot : ∀ pc, (h : pc < code.length) → code[pc].isExit = true → pc + 1 < code.length
  slot : ∀ pc, (h : pc < code.length) → (h' : pc + 1 < code.length) →
    code[pc].isExit = true ∨ code[pc].delaysPc = true → code[pc + 1].operation ≠ .branch

/-- Between two rounds: the logs agree, and either both stand before the same instruction with
    nothing pending, or both are through. -/
def Boundary (env : Env) (s : Bool × Interpreter) (t : Jit) : Prop :=
  t.executed = s.2.executed.map Prod.fst ∧
    if s.1 then
      ∃ pc : Nat, pc ≤ env.code.length ∧ s.2.pc = 4 * (pc : Int) ∧ s.2.delayedPc = none ∧
        t.rest = codeFrom env.code pc ∧ t.holder = .num 0 ∧ t.branches = s.2.branches
    else t.rest = []

/-- No instruction with the exit flag is in a delay slot that was executed. -/
def NoExitInSlot (code : List Opcode) (executed : List (Int × Bool)) : Prop :=
  ∀ pc : Nat, (h : pc < code.length) → ((pc : Int), true) ∈ executed → code[pc].isExit = false

instance (code : List Opcode) (executed : List (Int × Bool)) :
    Decidable (NoExitInSlot code executed) :=
  inferInstanceAs (Decidable (∀ pc : Nat, (h : pc < code.length) →
    ((pc : Int), true) ∈ executed → code[pc].isExit = false))

theorem Boundary.of_comes {env : Env} {native : Native} {t : Jit} {s : Bool × Interpreter}
    {pc branches : Nat} {executed : List Int}
    (hc : Jit.Comes env native t (codeFrom env.code pc) (.num 0) branches executed)
    (hrun : s.1 = true) (hpc : pc ≤ env.code.length) (hs : s.2.pc = 4 * (pc : Int))
    (hdelayed : s.2.delayedPc = none) (hbranches : branches = s.2.branches)
    (hexecuted : executed = s.2.executed.map Prod.fst) :
    ∃ t', Reaches (Jit.step env native) t t' ∧ Boundary env s t' := by
  obtain ⟨rax, data, hr⟩ := hc
  refine ⟨_, hr, hexecuted, ?_⟩
  rw [if_pos hrun]
  exact ⟨pc, hpc, hs, hdelayed, rfl, rfl, hbranches⟩

theorem Boundary.of_stopped {env : Env} {native : Native} {t : Jit} {s : Bool × Interpreter}
    {holder : Holder} {branches : Nat} {executed : List Int}
    (hc : Jit.Comes env native t [] holder branches executed) (hrun : s.1 = false)
    (hexecuted : executed = s.2.executed.map Prod.fst) :
    ∃ t', Reaches (Jit.step env native) t t' ∧ Boundary env s t' := by
  obtain ⟨rax, data, hr⟩ := hc
  refine ⟨_, hr, hexecuted, ?_⟩
  rw [if_neg (by simp [hrun])]

section Round

variable {env : Env} {native : Native} {value : Nat → BitVec 32} {s : Interpreter} {pc : Nat}
  {opcode : Opcode} {rax : Option Holder} {d : JitData}

theorem comes_instruction (native : Native) (hv : ∀ k v, env.branchValue k v = value k)
    (h : env.code[pc]? = some opcode) (hpc : s.pc = 4 * (pc : Int)) (slot : Bool)
    (ht : (s.fetch slot).taken env opcode = false) (holder : Holder) (rax : Option Holder)
    (d : JitData) :
    Jit.Comes env native ⟨codeFrom env.code pc, holder, rax, d, s.branches, s.executed.map Prod.fst⟩
      (compilePending (scanFlags env.code) pc opcode ++ codeFrom env.code (pc + 1)) holder
      ((s.fetch slot).operate env opcode).branches
      (((s.fetch slot).operate env opcode).executed.map Prod.fst) := by
  have hidx : s.pc / 4 = (pc : Int) := by omega
  rw [Interpreter.operate_branches, Interpreter.operate_executed]
  simp only [Interpreter.fetch, map_append, map_cons, map_nil, hidx]
  by_cases hb : opcode.operation = .branch
  · rw [if_pos hb]
    refine Jit.comes_not_taken h hb hv ?_
    simpa [Interpreter.taken, hb, hv, Interpreter.fetch] using ht
  · rw [if_neg hb, codeFrom_cons h]
    exact Jit.comes_operation _ hb

theorem boundary_next (hv : ∀ k v, env.branchValue k v = value k)
    (h : env.code[pc]? = some opcode) (hpc : s.pc = 4 * (pc : Int)) (hdelayed : s.delayedPc = none)
    (ht : (s.fetch false).taken env opcode = false) (hx : opcode.isExit = false) :
    ∃ t', Reaches (Jit.step env native)
        ⟨codeFrom env.code pc, .num 0, rax, d, s.branches, s.executed.map Prod.fst⟩ t' ∧
      Boundary env (true, (s.fetch false).operate env opcode) t' := by
  obtain ⟨hlt, -⟩ := List.getElem?_eq_some_iff.mp h
  refine Boundary.of_comes ((comes_instruction native hv h hpc false ht (.num 0) rax d).trans
    fun _ _ => Jit.comes_next h hx) rfl hlt ?_ ?_ rfl rfl
  · simp [Interpreter.fetch, hdelayed, hpc]
    omega
  · simp [Interpreter.fetch]

/-- An exit: the next instruction is its delay slot. -/
theorem boundary_exit (hwf : WellFormed env.code) (hv : ∀ k v, env.branchValue k v = value k)
    (h : env.code[pc]? = some opcode) (hpc : s.pc = 4 * (pc : Int)) (hdelayed : s.delayedPc = none)
    (ht : (s.fetch false).taken env opcode = false) (hx : opcode.isExit = true) (fuel : Nat)
    (hslot : (scanFlags env.code).hasDelayedPc = true → NoExitInSlot env.code
      (((s.fetch false).operate env opcode).step env (fuel + 1) true).2.executed) :
    ∃ t', Reaches (Jit.step env native)
        ⟨codeFrom env.code pc, .num 0, rax, d, s.branches, s.executed.map Prod.fst⟩ t' ∧
      Boundary env (false, (((s.fetch false).operate env opcode).step env (fuel + 1) true).2) t' := by
  obtain ⟨hlt, rfl⟩ := List.getElem?_eq_some_iff.mp h
  have hlt' := hwf.exitSlot pc hlt hx
  have hb := hwf.slot pc hlt hlt' (.inl hx)
  have h' : env.code[pc + 1]? = some env.code[pc + 1] := List.getElem?_eq_getElem hlt'
  have hfirst := comes_instruction native hv h hpc false ht (.num 0) rax d
  have hpc' : ((s.fetch false).operate env env.code[pc]).pc = 4 * ((pc + 1 : Nat) : Int) := by
    simp [Interpreter.fetch, hdelayed, hpc]
    omega
  generalize hafter : (s.fetch false).operate env env.code[pc] = after at *
  rw [Interpreter.step_slot fuel (by rw [Interpreter.getOpcode_eq env hpc', h']) hb] at hslot ⊢
  -- The slot is in the log, so it has no exit flag where this matters.
  have hx' : (scanFlags env.code).hasDelayedPc = true → env.code[pc + 1].isExit = false := by
    intro hd
    refine hslot hd (pc + 1) hlt' ?_
    have hidx : after.pc / 4 = ((pc + 1 : Nat) : Int) := by omega
    simp [Interpreter.fetch, hidx]
  have hsecond := comes_instruction native hv h' hpc' true (Interpreter.taken_of_ne hb)
    (Jit.exitHolder (scanFlags env.code))
  obtain ⟨rax1, d1, hr1⟩ := (hfirst.trans fun _ _ => Jit.comes_exit hlt' hx).trans hsecond
  obtain ⟨holder, hleave⟩ := Jit.comes_leave native (pc + 1) (codeFrom env.code (pc + 1 + 1))
    rax1 d1 _ _ hx'
  exact Boundary.of_stopped (.of_reaches hr1 hleave) rfl rfl

/-- A taken branch without a delay slot. -/
theorem boundary_annulled (hwf : WellFormed env.code)
    (hv : ∀ k v, env.branchValue k v = value k) (h : env.code[pc]? = some opcode)
    (hpc : s.pc = 4 * (pc : Int)) (ht : (s.fetch false).taken env opcode = true)
    (ha : opcode.branchAnnul = true) :
    ∃ t', Reaches (Jit.step env native)
        ⟨codeFrom env.code pc, .num 0, rax, d, s.branches, s.executed.map Prod.fst⟩ t' ∧
      Boundary env (true, { (s.fetch false).operate env opcode with
        pc := s.pc + opcode.getBranchTarget }) t' := by
  obtain ⟨hlt, rfl⟩ := List.getElem?_eq_some_iff.mp h
  obtain ⟨hb, ht⟩ : env.code[pc].operation = .branch ∧
      evaluateBranchCondition env.code[pc].branchCondition (value s.branches) = true := by
    simpa [Interpreter.taken, hv, Interpreter.fetch] using ht
  obtain ⟨h0, h1⟩ := hwf.target pc hlt hb
  have hj : jumpAddress pc env.code[pc] = ((jumpAddress pc env.code[pc]).toNat : Int) := by omega
  refine Boundary.of_comes (Jit.comes_annulled h hb hv ht ha hj (by omega)) rfl (by omega) ?_ ?_ ?_ ?_
  · rw [← hj, jumpAddress, Opcode.getBranchTarget]
    dsimp only
    omega
  · simp [Interpreter.fetch]
  · simp [Interpreter.operate_branches, hb, Interpreter.fetch]
  · have hidx : s.pc / 4 = (pc : Int) := by omega
    simp [Interpreter.fetch, hidx]

/-- A taken branch with a delay slot, which is the next instruction. -/
theorem boundary_delayed (hwf : WellFormed env.code)
    (hv : ∀ k v, env.branchValue k v = value k) (h : env.code[pc]? = some opcode)
    (hpc : s.pc = 4 * (pc : Int)) (hdelayed : s.delayedPc = none)
    (ht : (s.fetch false).taken env opcode = true) (ha : opcode.branchAnnul = false) (fuel : Nat)
    (hslot : (scanFlags env.code).hasDelayedPc = true → NoExitInSlot env.code
      ({ (s.fetch false).operate env opcode with
        delayedPc := some (s.pc + opcode.getBranchTarget) }.step env (fuel + 1) true).2.executed) :
    ∃ t', Reaches (Jit.step env native)
        ⟨codeFrom env.code pc, .num 0, rax, d, s.branches, s.executed.map Prod.fst⟩ t' ∧
      Boundary env ({ (s.fetch false).operate env opcode with
        delayedPc := some (s.pc + opcode.getBranchTarget) }.step env (fuel + 1) true) t' := by
  obtain ⟨hlt, rfl⟩ := List.getElem?_eq_some_iff.mp h
  obtain ⟨hb, ht⟩ : env.code[pc].operation = .branch ∧
      evaluateBranchCondition env.code[pc].branchCondition (value s.branches) = true := by
    simpa [Interpreter.taken, hv, Interpreter.fetch] using ht
  have hdel : env.code[pc].delaysPc = true := by simp [Opcode.delaysPc, hb, ha]
  have hd : (scanFlags env.code).hasDelayedPc = true :=
    any_eq_true.mpr ⟨_, getElem_mem hlt, hdel⟩
  obtain ⟨h0, h1⟩ := hwf.target pc hlt hb
  have hj : jumpAddress pc env.code[pc] = ((jumpAddress pc env.code[pc]).toNat : Int) := by omega
  have hfirst := Jit.comes_delayed native (.num 0) rax d (s.executed.map Prod.fst) h hb hv ht ha hd
  generalize hafter : { (s.fetch false).operate env env.code[pc] with
    delayedPc := some (s.pc + env.code[pc].getBranchTarget) } = after at *
  have hpc' : after.pc = 4 * ((pc + 1 : Nat) : Int) := by
    simp [← hafter, Interpreter.fetch, hdelayed, hpc]
    omega
  have hidx : s.pc / 4 = (pc : Int) := by omega
  have hexecuted : after.executed.map Prod.fst = s.executed.map Prod.fst ++ [(pc : Int)] := by
    simp [← hafter, Interpreter.fetch, hidx]
  have hbranches : after.branches = s.branches + 1 := by
    simp [← hafter, Interpreter.operate_branches, hb, Interpreter.fetch]
  rw [← hexecuted, ← hbranches] at hfirst
  have hop := Interpreter.getOpcode_eq env hpc'
  rcases Nat.lt_or_ge (pc + 1) env.code.length with hlt' | hge
  · -- The delay slot runs, and the pending branch is taken behind it.
    have hb' := hwf.slot pc hlt hlt' (.inr hdel)
    have h' : env.code[pc + 1]? = some env.code[pc + 1] := List.getElem?_eq_getElem hlt'
    rw [Interpreter.step_slot fuel (hop.trans h') hb'] at hslot ⊢
    have hx' : env.code[pc + 1].isExit = false := by
      refine hslot hd (pc + 1) hlt' ?_
      have hidx' : after.pc / 4 = ((pc + 1 : Nat) : Int) := by omega
      simp [Interpreter.fetch, hidx']
    have hsecond := comes_instruction native hv h' hpc' true (Interpreter.taken_of_ne hb')
      (.addr (.handlePostExit pc))
    refine Boundary.of_comes (((hfirst.trans hsecond).trans fun _ _ => Jit.comes_pending hd hx'
      _).trans fun _ _ => Jit.comes_handlePostExit h hb ha hd hj (by omega)) rfl (by omega) ?_ ?_
      rfl rfl
    · rw [← hj, jumpAddress, Opcode.getBranchTarget]
      simp only [Interpreter.operate_pc, Interpreter.fetch, ← hafter, Option.getD_some,
        Opcode.getBranchTarget]
      omega
    · simp [Interpreter.fetch]
  · -- The branch is the last instruction.
    have hend : pc + 1 = env.code.length := by omega
    have hstop := hfirst.trans fun rax d => Jit.comes_last native _ _ _ rax d hend
    rw [Interpreter.step, hop, List.getElem?_eq_none hge]
    exact Boundary.of_stopped hstop rfl rfl

/-- **One round**: the compiled code comes to where the interpreter is after it. -/
theorem Boundary.round (native : Native) (hwf : WellFormed env.code) (hv : ∀ k v, env.branchValue k v = value k)
    (fuel : Nat) {s : Bool × Interpreter} {t : Jit} (hst : Boundary env s t)
    (hslot : (scanFlags env.code).hasDelayedPc = true → NoExitInSlot env.code
      (Interpreter.round env (fuel + 2) s).2.executed) :
    ∃ t', Reaches (Jit.step env native) (Jit.step env native t) t' ∧
      Boundary env (Interpreter.round env (fuel + 2) s) t' := by
  obtain ⟨keep, s⟩ := s
  obtain ⟨rest, holder, rax, d, branches, executed⟩ := t
  obtain ⟨he, hst⟩ := hst
  dsimp only at he hst
  cases keep with
  | false =>
    obtain rfl : rest = [] := by simpa using hst
    exact ⟨_, .refl _, he, hst⟩
  | true =>
    rw [if_pos rfl] at hst
    obtain ⟨pc, hle, hpc, hdelayed, rfl, rfl, rfl⟩ := hst
    subst he
    rw [Interpreter.round, if_pos rfl] at hslot ⊢
    dsimp only at hslot ⊢
    have hop := Interpreter.getOpcode_eq env hpc
    rcases hle.lt_or_eq with hlt | hend
    · have h : env.code[pc]? = some env.code[pc] := List.getElem?_eq_getElem hlt
      rw [h] at hop
      have key : ∃ t', Reaches (Jit.step env native)
          ⟨codeFrom env.code pc, .num 0, rax, d, s.branches, s.executed.map Prod.fst⟩ t' ∧
          Boundary env (s.step env (fuel + 2) false) t' := by
        rw [Interpreter.step, hop] at hslot ⊢
        dsimp only at hslot ⊢
        cases ht : (s.fetch false).taken env env.code[pc] with
        | true =>
          rw [ht, if_pos rfl] at hslot
          rw [if_pos rfl]
          cases ha : env.code[pc].branchAnnul with
          | true =>
            rw [if_pos rfl]
            exact boundary_annulled hwf hv h hpc ht ha
          | false =>
            rw [ha, if_neg (by decide)] at hslot
            rw [if_neg (by decide)]
            exact boundary_delayed hwf hv h hpc hdelayed ht ha fuel hslot
        | false =>
          rw [ht, if_neg (by decide)] at hslot
          rw [if_neg (by decide)]
          cases hx : env.code[pc].isExit with
          | true =>
            rw [hx, if_pos (by rfl)] at hslot
            rw [if_pos (by rfl)]
            exact boundary_exit hwf hv h hpc hdelayed ht hx fuel hslot
          | false =>
            rw [if_neg (by decide)]
            exact boundary_next hv h hpc hdelayed ht hx
      obtain ⟨t', hr, hb⟩ := key
      refine ⟨t', hr.of_ne ?_, hb⟩
      rintro rfl
      -- The log of the round is longer.
      have hlen : (s.fetch false).executed.length ≤ (s.step env (fuel + 2) false).2.executed.length :=
        (Interpreter.fetch_prefix (fuel + 1) false hop).length_le
      have hsame := congrArg List.length hb.1
      simp [Interpreter.fetch] at hlen hsame
      omega
    · rw [List.getElem?_eq_none hend.ge] at hop
      have hstop := Jit.comes_last native (.num 0) s.branches (s.executed.map Prod.fst) rax d hend
      obtain ⟨t', hr, hb⟩ := Boundary.of_stopped (s := (false, s)) hstop rfl rfl
      rw [Interpreter.step, hop]
      refine ⟨t', hr.of_ne ?_, hb⟩
      rintro rfl
      have hrest := hb.2
      rw [if_neg Bool.false_ne_true, hend, codeFrom_end] at hrest
      exact cons_ne_nil _ _ hrest

end Round

/-! ## 5. The order of the instructions -/

theorem Jit.executed_grows (env : Env) (native : Native) : Grows (step env native) Jit.executed := by
  intro s
  unfold step
  split
  · exact prefix_refl _
  · rename_i a rest _
    cases a with
    | label l => cases l <;> simp [exec, pass]
    | je l => simp only [exec]; split <;> exact prefix_refl _
    | jne l => simp only [exec]; split <;> exact prefix_refl _
    | jmpRax => simp only [exec]; split <;> exact prefix_refl _
    | cmoveHolder => simp only [exec]; split <;> exact prefix_refl _
    | _ => exact prefix_refl _

/-- The interpreter and the machine with given values for the branches to compare. -/
def Env.withValues (env : Env) (value : Nat → BitVec 32) : Env :=
  { env with branchValue := fun k _ => value k }

/-- The `k`-th instruction that the interpreter executes. -/
def InterpreterExecutes (env : Env) (fuel k : Nat) (pc : Int) : Prop :=
  ∃ rounds, ((Interpreter.execute env fuel rounds).2.executed.map Prod.fst)[k]? = some pc

/-- The `k`-th instruction that the compiled code executes. -/
def JitExecutes (env : Env) (native : Native) (k : Nat) (pc : Int) : Prop :=
  ∃ steps, (Jit.execute env native steps).executed[k]? = some pc

/-- **The same instructions in the same order**: for all values that the branches compare, if no
    instruction with the exit flag runs in a delay slot of a macro some of whose branches have a
    delay slot. -/
theorem executes_iff (env : Env) (native : Native) (value : Nat → BitVec 32) (fuel : Nat)
    (hwf : WellFormed env.code)
    (hslot : (scanFlags env.code).hasDelayedPc = true → ∀ rounds, NoExitInSlot env.code
      (Interpreter.execute (env.withValues value) (fuel + 2) rounds).2.executed)
    (k : Nat) (pc : Int) :
    InterpreterExecutes (env.withValues value) (fuel + 2) k pc ↔
      JitExecutes (env.withValues value) native k pc := by
  let env' := env.withValues value
  -- A boundary is taken together with the round at which the interpreter reaches it.
  let R (s : Bool × Interpreter) (t : Jit) : Prop :=
    (∃ rounds, s = Interpreter.execute env' (fuel + 2) rounds) ∧ Boundary env' s t
  have hsim : Simulates (Interpreter.round env' (fuel + 2)) (Jit.step env' native)
      (fun s => s.2.executed.map Prod.fst) Jit.executed R := by
    refine ⟨?_, fun s t h => h.2.1.symm, Jit.executed_grows env' native⟩
    rintro s t ⟨⟨rounds, rfl⟩, hb⟩
    have hnext : Interpreter.round env' (fuel + 2) (Interpreter.execute env' (fuel + 2) rounds) =
        Interpreter.execute env' (fuel + 2) (rounds + 1) :=
      (Function.iterate_succ_apply' _ _ _).symm
    have hwf' : WellFormed env'.code := hwf
    have hv : ∀ k v, env'.branchValue k v = value k := fun _ _ => rfl
    obtain ⟨t', hr, hb'⟩ := hb.round native hwf' hv fuel
      (fun hd => by rw [hnext]; exact hslot hd (rounds + 1))
    exact ⟨t', hr, ⟨rounds + 1, hnext⟩, hb'⟩
  have h0 : R (true, Interpreter.init env') (Jit.init env' native) :=
    ⟨⟨0, rfl⟩, rfl, 0, Nat.zero_le _, rfl, rfl, rfl, rfl, rfl⟩
  exact hsim.log_iff h0 k pc

/-- A branch over two instructions with a delay slot, and an exit at its target. -/
def delayedMacro : List Opcode := [⟨0xC007⟩, ⟨0x11⟩, ⟨0x11⟩, ⟨0x91⟩, ⟨0x11⟩]

/-- The same with the exit flag in the delay slot of the branch. -/
def exitInSlotMacro : List Opcode := [⟨0xC007⟩, ⟨0x91⟩, ⟨0x11⟩, ⟨0x91⟩, ⟨0x11⟩]

/-- A macro with one parameter on an engine whose registers are zero. -/
def Env.ofCode (code : List Opcode) : Env := ⟨code, [0], fun _ _ => 0, fun _ => 0, fun _ v => v⟩

/-- A host that leaves zeros. -/
def Native.zero : Native := ⟨fun _ => ⟨0, 0, false, false⟩, 0, fun _ => 0, fun _ => 0⟩

theorem wellFormed_delayedMacro : WellFormed delayedMacro :=
  ⟨by decide, by decide, by decide⟩

theorem wellFormed_exitInSlotMacro : WellFormed exitInSlotMacro :=
  ⟨by decide, by decide, by decide⟩

theorem executes_iff_delayedMacro : (scanFlags delayedMacro).hasDelayedPc = true ∧
    ∀ k pc, InterpreterExecutes ((Env.ofCode delayedMacro).withValues fun _ => 0) 2 k pc ↔
      JitExecutes ((Env.ofCode delayedMacro).withValues fun _ => 0) Native.zero k pc := by
  refine ⟨by decide, executes_iff (Env.ofCode delayedMacro) Native.zero (fun _ => 0) 0
    wellFormed_delayedMacro ?_⟩
  intro _ rounds
  rcases rounds with _ | _ | rounds
  · decide
  · decide
  · rw [show rounds + 1 + 1 = 2 + rounds by omega, Interpreter.execute_stopped (by decide)]
    decide

/-- The compiled code goes on behind an exit in a delay slot, where the interpreter takes the
    branch. -/
theorem exit_in_slot_runs_on : ¬ ∀ (env : Env) (native : Native) (value : Nat → BitVec 32)
    (fuel : Nat), WellFormed env.code → ∀ k pc,
      (InterpreterExecutes (env.withValues value) (fuel + 2) k pc ↔
        JitExecutes (env.withValues value) native k pc) := by
  intro h
  have hiff := h (Env.ofCode exitInSlotMacro) Native.zero (fun _ => 0) 0 wellFormed_exitInSlotMacro 2
  have hinterpreter : InterpreterExecutes ((Env.ofCode exitInSlotMacro).withValues fun _ => 0)
      2 2 3 := ⟨2, by decide⟩
  obtain ⟨n, hn⟩ := (hiff 3).mp hinterpreter
  have hjit : (Jit.execute ((Env.ofCode exitInSlotMacro).withValues fun _ => 0) Native.zero
      19).executed[2]? = some 2 := by decide
  exact absurd ((Jit.executed_grows _ _).entry_unique _ hn hjit) (by decide)

end Yuzu.VideoCore.Macro
