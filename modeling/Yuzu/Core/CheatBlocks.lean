/-
  File:      Yuzu/Core/CheatBlocks.lean
  Subject:   Cheat programs as structured programs: blocks of opcodes with if and else, and what they do.

  * `Block`: the tree of a program. Every opcode stands with the position behind it.
  * `Laid`: the words of a program, read from a position on, are a block.
  * `Structured.step`: a structured program takes the branch of a condition and comes back behind the block.
    It has no depth and skips nothing. A loop keeps the place it goes back to, with the blocks around it.
-/
import Yuzu.Core.CheatVm

namespace Yuzu.Core.Cheat

variable {W : Type*} {program : List Nat} {ip e p : Nat}

/-! ## 1. Blocks -/

/-- An opcode, and the position behind it. -/
structure Located where
  opcode : Opcode
  next : Nat

/-- **A structured program**: opcodes one after the other, where a condition stands with its branches and with
the opcodes that end them. -/
inductive Block where
  | done
  | plain (here : Located) (rest : Block)
  | ifThen (start : Located) (body : Block) (stop : Located) (rest : Block)
  | ifElse (start : Located) (body : Block) (middle : Located) (other : Block) (stop : Located) (rest : Block)

/-- An opcode that is no part of a block structure. -/
def Opcode.isPlain : Opcode → Bool
  | .endConditional _ => false
  | o => !o.beginConditionalBlock

/-- **The words from a position to another are a block**: begins, elses and ends are properly nested, with at
most one else for each begin. -/
inductive Laid (program : List Nat) : Nat → Block → Nat → Prop where
  | done (ip : Nat) : Laid program ip .done ip
  | plain {ip e : Nat} {here : Located} {rest : Block} (hhere : decodeNext program ip = some (here.opcode, here.next))
      (hplain : here.opcode.isPlain = true) (hrest : Laid program here.next rest e) :
      Laid program ip (.plain here rest) e
  | ifThen {ip m e : Nat} {start stop : Located} {body rest : Block}
      (hstart : decodeNext program ip = some (start.opcode, start.next))
      (hbegin : start.opcode.beginConditionalBlock = true) (hbody : Laid program start.next body m)
      (hstop : decodeNext program m = some (stop.opcode, stop.next)) (hend : stop.opcode = .endConditional false)
      (hrest : Laid program stop.next rest e) : Laid program ip (.ifThen start body stop rest) e
  | ifElse {ip m m' e : Nat} {start middle stop : Located} {body other rest : Block}
      (hstart : decodeNext program ip = some (start.opcode, start.next))
      (hbegin : start.opcode.beginConditionalBlock = true) (hbody : Laid program start.next body m)
      (hmiddle : decodeNext program m = some (middle.opcode, middle.next))
      (helse : middle.opcode = .endConditional true) (hother : Laid program middle.next other m')
      (hstop : decodeNext program m' = some (stop.opcode, stop.next)) (hend : stop.opcode = .endConditional false)
      (hrest : Laid program stop.next rest e) : Laid program ip (.ifElse start body middle other stop rest) e

namespace Block

/-- The number of opcodes. -/
def size : Block → Nat
  | done => 0
  | plain _ rest => rest.size + 1
  | ifThen _ body _ rest => body.size + rest.size + 2
  | ifElse _ body _ other _ rest => body.size + other.size + rest.size + 3

/-- **The number of blocks that are open at a position**: from behind their begin up to their end. -/
def openAt : Block → Nat → Nat
  | done, _ => 0
  | plain _ rest, p => rest.openAt p
  | ifThen start body stop rest, p =>
    (if start.next ≤ p ∧ p < stop.next then 1 else 0) + body.openAt p + rest.openAt p
  | ifElse start body _ other stop rest, p =>
    (if start.next ≤ p ∧ p < stop.next then 1 else 0) + body.openAt p + other.openAt p + rest.openAt p

end Block

theorem Laid.size_le (h : Laid program ip b e) : ip + b.size ≤ e := by
  induction h with
  | done ip => exact Nat.le_refl _
  | plain hhere _ _ ih =>
    have := decodeNext_spec hhere
    unfold Block.size
    omega
  | ifThen hstart _ _ hstop _ _ ihb ihr =>
    have := decodeNext_spec hstart
    have := decodeNext_spec hstop
    unfold Block.size
    omega
  | ifElse hstart _ _ hmiddle _ _ hstop _ _ ihb iho ihr =>
    have := decodeNext_spec hstart
    have := decodeNext_spec hmiddle
    have := decodeNext_spec hstop
    unfold Block.size
    omega

theorem Laid.le (h : Laid program ip b e) : ip ≤ e := Nat.le_trans (Nat.le_add_right _ _) h.size_le

theorem Laid.openAt_outside (h : Laid program ip b e) (hp : p ≤ ip ∨ e ≤ p) : b.openAt p = 0 := by
  induction h with
  | done ip => rfl
  | plain hhere _ hrest ih =>
    have := decodeNext_spec hhere
    exact ih (by omega)
  | ifThen hstart _ hbody hstop _ hrest ihb ihr =>
    have := decodeNext_spec hstart
    have := decodeNext_spec hstop
    have := hbody.le
    have := hrest.le
    rw [Block.openAt, ihb (by omega), ihr (by omega), if_neg (by omega)]
  | ifElse hstart _ hbody hmiddle _ hother hstop _ hrest ihb iho ihr =>
    have := decodeNext_spec hstart
    have := decodeNext_spec hmiddle
    have := decodeNext_spec hstop
    have := hbody.le
    have := hother.le
    have := hrest.le
    rw [Block.openAt, ihb (by omega), iho (by omega), ihr (by omega), if_neg (by omega)]

/-! ## 2. What a structured program does -/

/-- A block that is left when its mark is reached: the opcode there, and what comes behind the block. -/
structure Frame where
  mark : Located
  after : Block

/-- A place in a structured program: what is left of the branch, and the blocks around it. -/
structure Place where
  current : Block
  stack : List Frame

/-- A run of a structured program. -/
structure Structured (W : Type*) where
  machine : Machine W
  place : Place
  tops : Nat → Place
  halted : Bool

namespace Structured

/-- An opcode that is neither condition nor mark. -/
def stepPlain (env : Environment W) (s : Structured W) (here : Located) (rest : Block) (stack : List Frame) :
    Structured W :=
  let machine := s.machine.logOpcode here.next here.opcode
  match here.opcode with
  | .controlLoop true regIndex numIters =>
    { s with
      machine := machine.setRegister regIndex (UInt64.ofNat numIters)
      place := ⟨rest, stack⟩
      tops := Function.update s.tops regIndex ⟨rest, stack⟩ }
  | .controlLoop false regIndex _ =>
    let machine := machine.setRegister regIndex (machine.registers regIndex - 1)
    if machine.registers regIndex ≠ 0 then { s with machine := machine, place := s.tops regIndex }
    else { s with machine := machine, place := ⟨rest, stack⟩ }
  | opcode => { s with machine := machine.perform env opcode, place := ⟨rest, stack⟩ }

/-- **One opcode of a structured program.** A mark that is reached is logged and left. -/
def step (env : Environment W) (s : Structured W) : Structured W :=
  match s.place with
  | ⟨.done, []⟩ => { s with halted := true }
  | ⟨.done, frame :: stack⟩ =>
    { s with
      machine := s.machine.logOpcode frame.mark.next frame.mark.opcode
      place := ⟨frame.after, stack⟩ }
  | ⟨.plain here rest, stack⟩ => s.stepPlain env here rest stack
  | ⟨.ifThen start body stop rest, stack⟩ =>
    let (condMet, machine) := (s.machine.logOpcode start.next start.opcode).condition env start.opcode
    { s with machine := machine, place := if condMet then ⟨body, ⟨stop, rest⟩ :: stack⟩ else ⟨rest, stack⟩ }
  | ⟨.ifElse start body middle other stop rest, stack⟩ =>
    let (condMet, machine) := (s.machine.logOpcode start.next start.opcode).condition env start.opcode
    { s with
      machine := machine
      place := if condMet then ⟨body, ⟨middle, rest⟩ :: stack⟩ else ⟨other, ⟨stop, rest⟩ :: stack⟩ }

/-- So many opcodes. -/
def run (env : Environment W) : Nat → Structured W → Structured W
  | 0, s => s
  | n + 1, s => (s.run env n).step env

/-- A program at its start, with the machine of `ResetState`. -/
def start (root : Block) (staticRegisters : Nat → UInt64) (world : W) : Structured W :=
  ⟨(DmntCheatVm.resetState staticRegisters world).machine, ⟨root, []⟩, fun _ => ⟨root, []⟩, false⟩

end Structured

end Yuzu.Core.Cheat
