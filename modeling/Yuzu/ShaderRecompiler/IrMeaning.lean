/-
  File:      Yuzu/ShaderRecompiler/IrMeaning.lean
  Subject:   What the instructions of the shader IR compute. An assignment gives the inputs; the
             integer and boolean opcodes compute on words, and every further opcode is an input
             that may depend on its arguments.
-/
import Yuzu.Lib.BitField
import Yuzu.ShaderRecompiler.MicroInstruction

namespace Yuzu.Shader

open Option

/-! ## 1. Run-time values -/

/-- A run-time value; floats are their bits, `name` is a register, predicate or patch operand. -/
inductive Val where
  | u1 (b : Bool) | u8 (w : BitVec 8) | u16 (w : BitVec 16) | u32 (w : BitVec 32)
  | u64 (w : BitVec 64)
  | name (index : Nat)
  | attr (attr : Attribute)
  | vec (elems : List Val)

/-- **An assignment**: the values of the inputs. `input` gives the results of the opcodes that are
    not integer operations, by instruction and argument values; `word` the constant buffers;
    `attrBits` the raw bits of a vertex attribute; `undefined` the results of integer operations
    where the target leaves them open (a shift by 32 or more, a field that leaves the word). -/
structure Assignment where
  input : Nat → List Val → Val
  word : BitVec 32 → BitVec 32 → BitVec 32
  attrBits : Attribute → Val → BitVec 32
  undefined : Opcode → List (BitVec 32) → BitVec 32

/-! ## 2. Operations -/

/-- An operation on two words. -/
def onWords (vals : List Val) (f : BitVec 32 → BitVec 32 → Val) : Option Val :=
  match vals with
  | [.u32 a, .u32 b] => some (f a b)
  | _ => none

/-- An operation on two booleans. -/
def onBools (vals : List Val) (f : Bool → Bool → Bool) : Option Val :=
  match vals with
  | [.u1 a, .u1 b] => some (.u1 (f a b))
  | _ => none

/-- An operation on a word and a field of it. -/
def onField (vals : List Val) (f : BitVec 32 → BitVec 32 → BitVec 32 → BitVec 32) : Option Val :=
  match vals with
  | [.u32 base, .u32 offset, .u32 count] => some (.u32 (f base offset count))
  | _ => none

variable (σ : Assignment)

/-- A left shift. -/
def Assignment.shiftLeft (a b : BitVec 32) : BitVec 32 :=
  if b.toNat < 32 then a <<< b.toNat else σ.undefined .shiftLeftLogical32 [a, b]

/-- An arithmetic right shift. -/
def Assignment.shiftRight (a b : BitVec 32) : BitVec 32 :=
  if b.toNat < 32 then a.sshiftRight b.toNat else σ.undefined .shiftRightArithmetic32 [a, b]

/-- The bit-field operations, where the field lies in the word. -/
def Assignment.uExtract (base offset count : BitVec 32) : BitVec 32 :=
  if offset.toNat + count.toNat ≤ 32 then fieldU base offset.toNat count.toNat
  else σ.undefined .bitFieldUExtract [base, offset, count]

def Assignment.sExtract (base offset count : BitVec 32) : BitVec 32 :=
  if offset.toNat + count.toNat ≤ 32 then fieldS base offset.toNat count.toNat
  else σ.undefined .bitFieldSExtract [base, offset, count]

def Assignment.insert (base ins offset count : BitVec 32) : BitVec 32 :=
  if offset.toNat + count.toNat ≤ 32 then fieldInsert base ins offset.toNat count.toNat
  else σ.undefined .bitFieldInsert [base, ins, offset, count]

/-- **What an opcode computes** from the values of its arguments; none where their number or types
    are not those of the opcode. -/
def apply (id : Nat) (op : Opcode) (vals : List Val) : Option Val :=
  match op with
  | .identity => match vals with
    | [v] => some v
    | _ => none
  | .getRegister => match vals with
    | [.name r] => some (if r = regRZ then .u32 0 else σ.input id vals)
    | _ => none
  | .getPred => match vals with
    | [.name p] => some (if p = predPT then .u1 true else σ.input id vals)
    | _ => none
  | .getCbufU32 | .getCbufF32 => onWords vals fun bank offset => .u32 (σ.word bank offset)
  | .getAttribute | .getAttributeU32 => match vals with
    | [.attr attr, vertex] => some (.u32 (σ.attrBits attr vertex))
    | _ => none
  | .iAdd32 => onWords vals fun a b => .u32 (a + b)
  | .iAdd64 => match vals with
    | [.u64 a, .u64 b] => some (.u64 (a + b))
    | _ => none
  | .iSub32 => onWords vals fun a b => .u32 (a - b)
  | .iMul32 => onWords vals fun a b => .u32 (a * b)
  | .shiftLeftLogical32 => onWords vals fun a b => .u32 (σ.shiftLeft a b)
  | .shiftRightArithmetic32 => onWords vals fun a b => .u32 (σ.shiftRight a b)
  | .bitwiseAnd32 => onWords vals fun a b => .u32 (a &&& b)
  | .bitwiseOr32 => onWords vals fun a b => .u32 (a ||| b)
  | .bitwiseXor32 => onWords vals fun a b => .u32 (a ^^^ b)
  | .bitFieldInsert => match vals with
    | [.u32 base, .u32 ins, .u32 offset, .u32 count] => some (.u32 (σ.insert base ins offset count))
    | _ => none
  | .bitFieldSExtract => onField vals σ.sExtract
  | .bitFieldUExtract => onField vals σ.uExtract
  | .sLessThan => onWords vals fun a b => .u1 (decide (a.toInt < b.toInt))
  | .uLessThan => onWords vals fun a b => .u1 (decide (a.toNat < b.toNat))
  | .iEqual => onWords vals fun a b => .u1 (decide (a.toNat = b.toNat))
  | .sLessThanEqual => onWords vals fun a b => .u1 (decide (a.toInt ≤ b.toInt))
  | .uLessThanEqual => onWords vals fun a b => .u1 (decide (a.toNat ≤ b.toNat))
  | .sGreaterThan => onWords vals fun a b => .u1 (decide (b.toInt < a.toInt))
  | .uGreaterThan => onWords vals fun a b => .u1 (decide (b.toNat < a.toNat))
  | .iNotEqual => onWords vals fun a b => .u1 (decide (a.toNat ≠ b.toNat))
  | .sGreaterThanEqual => onWords vals fun a b => .u1 (decide (b.toInt ≤ a.toInt))
  | .uGreaterThanEqual => onWords vals fun a b => .u1 (decide (b.toNat ≤ a.toNat))
  | .logicalOr => onBools vals fun a b => a || b
  | .logicalAnd => onBools vals fun a b => a && b
  | .logicalNot => match vals with
    | [.u1 a] => some (.u1 (!a))
    | _ => none
  | .select _ => match vals with
    | [.u1 cond, a, b] => some (if cond then a else b)
    | _ => none
  | .bitCastU32F32 | .bitCastF32U32 => match vals with
    | [.u32 a] => some (.u32 a)
    | _ => none
  | .compositeConstruct _ _ => some (.vec vals)
  | .compositeExtract _ _ => match vals with
    | [.vec elems, .u32 index] => elems[index.toNat]?
    | _ => none
  | .compositeInsert _ _ => match vals with
    | [.vec elems, v, .u32 index] =>
      if index.toNat < elems.length then some (.vec (elems.set index.toNat v)) else none
    | _ => none
  | _ => some (σ.input id vals)

/-! ## 3. The value of an instruction -/

/-- The value of an argument, by the values of the instructions. -/
def denote (ρ : Nat → Option Val) : Value → Option Val
  | .void => none
  | .reg r => some (.name r)
  | .pred p => some (.name p)
  | .attr attr => some (.attr attr)
  | .patch p => some (.name p)
  | .u1 b => some (.u1 b)
  | .u8 w => some (.u8 w)
  | .u16 w => some (.u16 w)
  | .u32 w | .f32 w => some (.u32 w)
  | .u64 w | .f64 w => some (.u64 w)
  | .inst id => ρ id

/-- The values of a list of arguments. -/
def denoteAll (ρ : Nat → Option Val) : List Value → Option (List Val)
  | [] => some []
  | v :: vs => (denote ρ v).bind fun val => (denoteAll ρ vs).map (val :: ·)

/-- The value of an instruction, by the values of the instructions before it. -/
def instMeaning (ρ : Nat → Option Val) (id : Nat) (inst : Inst) : Option Val :=
  (denoteAll ρ inst.args).bind (apply σ id inst.op)

/-- The value of the instruction with a name. -/
def valueOf (h : Heap) (id : Nat) : Option Val := lineValue (instMeaning σ) h id

/-- The value of an argument after the instructions of `h`. -/
def argValue (h : Heap) (v : Value) : Option Val := denote (valueOf σ h) v

/-! ## 4. Values through identities -/

variable {σ} {h earlier : Heap} {id : Nat} {inst : Inst} {v : Value} {x : Val} {vals : List Val}

theorem denote_mono {ρ ρ' : Nat → Option Val} (hle : ∀ id v, ρ id = some v → ρ' id = some v)
    (hx : denote ρ v = some x) : denote ρ' v = some x := by
  cases v with
  | inst id => exact hle id x hx
  | _ => exact hx

theorem denoteAll_mono {ρ ρ' : Nat → Option Val} (hle : ∀ id v, ρ id = some v → ρ' id = some v)
    {vs : List Value} (hx : denoteAll ρ vs = some vals) : denoteAll ρ' vs = some vals := by
  induction vs generalizing vals with
  | nil => exact hx
  | cons v vs ih =>
    simp only [denoteAll, bind_eq_some_iff, map_eq_some_iff] at hx ⊢
    obtain ⟨x, hv, xs, hvs, rfl⟩ := hx
    exact ⟨x, denote_mono hle hv, xs, ih hvs, rfl⟩

theorem instMeaning_mono : MonotoneSem (instMeaning σ) := by
  intro ρ ρ' hle id inst x hx
  obtain ⟨vals, hvals, happly⟩ := bind_eq_some_iff.mp hx
  exact bind_eq_some_iff.mpr ⟨vals, denoteAll_mono hle hvals, happly⟩

theorem argValue_mono {h' : Heap} (hle : Refines (instMeaning σ) h h')
    (hx : argValue σ h v = some x) : argValue σ h' v = some x :=
  denote_mono hle hx

theorem argValue_cons {l : Line Inst} (hd : Distinct (l :: h)) (hx : argValue σ h v = some x) :
    argValue σ (l :: h) v = some x :=
  argValue_mono (Refines.fresh hd.head) hx

theorem instMeaning_identity {ρ : Nat → Option Val} (hop : inst.op = .identity)
    (hx : instMeaning σ ρ id inst = some x) : denote ρ (inst.arg 0) = some x := by
  obtain ⟨vals, hvals, happly⟩ := bind_eq_some_iff.mp hx
  rw [hop] at happly
  rcases hargs : inst.args with _ | ⟨v, _ | ⟨w, vs⟩⟩
  · rw [hargs] at hvals
    cases hvals
    cases happly
  · rw [hargs] at hvals
    simp only [denoteAll, bind_eq_some_iff, map_eq_some_iff] at hvals
    obtain ⟨y, hv, -, ⟨rfl⟩, rfl⟩ := hvals
    cases happly
    simpa [Inst.arg, hargs] using hv
  · rw [hargs] at hvals
    simp only [denoteAll, bind_eq_some_iff, map_eq_some_iff] at hvals
    obtain ⟨y, -, -, ⟨z, -, zs, -, rfl⟩, rfl⟩ := hvals
    cases happly

/-- **Looking through identities keeps the value.** -/
theorem argValue_resolve (hd : Distinct h) (hx : argValue σ h v = some x) :
    argValue σ h (resolve h v) = some x := by
  induction h generalizing v with
  | nil => exact hx
  | cons l earlier ih =>
    cases v with
    | inst id =>
      rw [resolve]
      by_cases heq : l.id = id
      · subst heq
        rw [if_pos rfl]
        by_cases hop : l.inst.op = .identity
        · rw [if_pos hop]
          have hx' : instMeaning σ (valueOf σ earlier) l.id l.inst = some x := by
            rw [argValue, denote, valueOf, lineValue_self] at hx
            exact hx
          exact argValue_cons hd (ih hd.tail (instMeaning_identity hop hx'))
        · rw [if_neg hop]
          exact hx
      · rw [if_neg heq]
        have hx' : argValue σ earlier (.inst id) = some x := by
          rw [argValue, denote, valueOf, lineValue_of_ne heq] at hx
          exact hx
        exact argValue_cons hd (ih hd.tail hx')
    | _ => exact hx

/-- **The instruction behind a value computes it.** -/
theorem instMeaning_of_instRecursive (hd : Distinct h) (hfind : instRecursive h v = some (id, inst))
    (hx : argValue σ h v = some x) : instMeaning σ (valueOf σ h) id inst = some x := by
  have hres := argValue_resolve hd hx
  unfold instRecursive at hfind
  cases hr : resolve h v with
  | inst id' =>
    rw [hr] at hfind hres
    obtain ⟨found, hf, heq⟩ := map_eq_some_iff.mp hfind
    obtain ⟨rfl, rfl⟩ := Prod.mk.inj heq
    obtain ⟨inst', hf', hsem⟩ := lineValue_find instMeaning_mono hd hres
    rw [hf] at hf'
    cases hf'
    exact hsem
  | _ => simp [hr] at hfind

/-! Immediates -/

theorem immU32_eq (hd : Distinct h) (himm : isImmediate h v = true) {w : BitVec 32}
    (hx : argValue σ h v = some (.u32 w)) : immU32 h v = w := by
  have hres := argValue_resolve hd hx
  unfold isImmediate at himm
  unfold immU32
  cases hr : resolve h v <;> rw [hr] at hres himm <;> simp_all [argValue, denote]

theorem immU64_eq (hd : Distinct h) (himm : isImmediate h v = true) {w : BitVec 64}
    (hx : argValue σ h v = some (.u64 w)) : immU64 h v = w := by
  have hres := argValue_resolve hd hx
  unfold isImmediate at himm
  unfold immU64
  cases hr : resolve h v <;> rw [hr] at hres himm <;> simp_all [argValue, denote]

theorem immU1_eq (hd : Distinct h) (himm : isImmediate h v = true) {b : Bool}
    (hx : argValue σ h v = some (.u1 b)) : immU1 h v = b := by
  have hres := argValue_resolve hd hx
  unfold isImmediate at himm
  unfold immU1
  cases hr : resolve h v <;> rw [hr] at hres himm <;> simp_all [argValue, denote]

/-! Arguments by number -/

theorem denoteAll_getElem {ρ : Nat → Option Val} {vs : List Value}
    (hvals : denoteAll ρ vs = some vals) {k : Nat} (hk : vals[k]? = some x) :
    denote ρ (vs.getD k .void) = some x := by
  induction vs generalizing vals k with
  | nil =>
    cases hvals
    cases hk
  | cons v vs ih =>
    simp only [denoteAll, bind_eq_some_iff, map_eq_some_iff] at hvals
    obtain ⟨y, hv, ys, hvs, rfl⟩ := hvals
    cases k with
    | zero =>
      obtain rfl : y = x := by simpa using hk
      exact hv
    | succ k => exact ih hvs (by simpa using hk)

theorem argValue_arg (hvals : denoteAll (valueOf σ h) inst.args = some vals) {k : Nat}
    (hk : vals[k]? = some x) : argValue σ h (inst.arg k) = some x :=
  denoteAll_getElem hvals hk

end Yuzu.Shader
