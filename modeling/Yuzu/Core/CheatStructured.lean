/-
  File:      Yuzu/Core/CheatStructured.lean
  Subject:   The cheat VM runs a properly nested program as the structured program, as long as its loops go
             back to positions inside as many blocks.

  * `skipLoop_laid`: skipping takes a whole block, opcode by opcode.
  * `Here`: a position of the VM is a place of the structured program, with as many open blocks.
  * `step_matches`: one turn is one opcode of the structured program.
-/
import Yuzu.Core.CheatBlocks

namespace Yuzu.Core.Cheat

open Function

variable {W : Type*} {program : List Nat} {env : Environment W} {ip e m next fuel desired depth : Nat}
  {b root : Block} {vm vm' : DmntCheatVm W} {s : Structured W} {o : Opcode} {isIf : Bool} {machine : Machine W}
  {tops : Nat → Nat}

/-! ## 1. Skipping -/

theorem decodeNextOpcode_eq (h : decodeNext program ip = some (o, next)) :
    (⟨machine, ip, depth, true, tops⟩ : DmntCheatVm W).decodeNextOpcode program =
      (some o, ⟨machine, next, depth, true, tops⟩) := by
  simp only [DmntCheatVm.decodeNextOpcode, if_true, h]

theorem skipLoop_begin (hd : desired < depth) (h : decodeNext program ip = some (o, next))
    (ho : o.beginConditionalBlock = true) :
    DmntCheatVm.skipLoop program isIf desired (fuel + 1) ⟨machine, ip, depth, true, tops⟩ =
      DmntCheatVm.skipLoop program isIf desired fuel ⟨machine, next, depth + 1, true, tops⟩ := by
  rw [DmntCheatVm.skipLoop, if_pos hd, decodeNextOpcode_eq h]
  exact if_pos ho

theorem skipLoop_plain (hd : desired < depth) (h : decodeNext program ip = some (o, next))
    (ho : o.isPlain = true) :
    DmntCheatVm.skipLoop program isIf desired (fuel + 1) ⟨machine, ip, depth, true, tops⟩ =
      DmntCheatVm.skipLoop program isIf desired fuel ⟨machine, next, depth, true, tops⟩ := by
  rw [DmntCheatVm.skipLoop, if_pos hd, decodeNextOpcode_eq h]
  cases o <;> first | rfl | exact Bool.noConfusion ho

theorem skipLoop_end (hd : desired < depth) (h : decodeNext program ip = some (.endConditional false, next)) :
    DmntCheatVm.skipLoop program isIf desired (fuel + 1) ⟨machine, ip, depth, true, tops⟩ =
      DmntCheatVm.skipLoop program isIf desired fuel ⟨machine, next, depth - 1, true, tops⟩ := by
  rw [DmntCheatVm.skipLoop, if_pos hd, decodeNextOpcode_eq h]
  rfl

theorem skipLoop_else (hd : desired < depth) (h : decodeNext program ip = some (.endConditional true, next)) :
    DmntCheatVm.skipLoop program isIf desired (fuel + 1) ⟨machine, ip, depth, true, tops⟩ =
      if isIf ∧ depth - 1 = desired then ⟨machine, next, depth, true, tops⟩
      else DmntCheatVm.skipLoop program isIf desired fuel ⟨machine, next, depth, true, tops⟩ := by
  rw [DmntCheatVm.skipLoop, if_pos hd, decodeNextOpcode_eq h]
  rfl

theorem skipLoop_stop (hd : ¬desired < depth) :
    DmntCheatVm.skipLoop program isIf desired fuel ⟨machine, ip, depth, true, tops⟩ =
      ⟨machine, ip, depth, true, tops⟩ := by
  cases fuel with
  | zero => rfl
  | succ fuel => rw [DmntCheatVm.skipLoop, if_neg hd]

/-- **A whole part is skipped opcode by opcode**, and the depth behind it is that before it. -/
theorem skipLoop_laid (h : Laid program ip b e) (fuel : Nat) (hd : desired < depth) :
    DmntCheatVm.skipLoop program isIf desired (b.size + fuel) ⟨machine, ip, depth, true, tops⟩ =
      DmntCheatVm.skipLoop program isIf desired fuel ⟨machine, e, depth, true, tops⟩ := by
  induction h generalizing fuel depth with
  | done ip => rw [Block.size, Nat.zero_add]
  | plain hhere hplain _ ih => rw [Block.size, Nat.add_right_comm, skipLoop_plain hd hhere hplain, ih fuel hd]
  | @ifThen ip m e start stop body rest hstart hbegin _ hstop hend _ ihb ihr =>
    have hfuel : (Block.ifThen start body stop rest).size + fuel = body.size + (rest.size + fuel + 1) + 1 := by
      rw [Block.size]
      omega
    have hdeep : desired < depth + 1 := Nat.lt_succ_of_lt hd
    rw [hend] at hstop
    rw [hfuel, skipLoop_begin hd hstart hbegin, ihb _ hdeep, skipLoop_end hdeep hstop, Nat.add_sub_cancel,
      ihr fuel hd]
  | @ifElse ip m m' e start middle stop body other rest hstart hbegin _ hmiddle helse _ hstop hend _ ihb iho ihr =>
    have hfuel : (Block.ifElse start body middle other stop rest).size + fuel =
        body.size + (other.size + (rest.size + fuel + 1) + 1) + 1 := by
      rw [Block.size]
      omega
    have hdeep : desired < depth + 1 := Nat.lt_succ_of_lt hd
    -- the else of an inner block is at another depth
    have hinner : ¬(isIf ∧ depth + 1 - 1 = desired) := by
      omega
    rw [hend] at hstop
    rw [helse] at hmiddle
    rw [hfuel, skipLoop_begin hd hstart hbegin, ihb _ hdeep, skipLoop_else hdeep hmiddle, if_neg hinner,
      iho _ hdeep, skipLoop_end hdeep hstop, Nat.add_sub_cancel, ihr fuel hd]

/-- **Skipping to the end of a block.** -/
theorem skip_to_end (h : Laid program ip b m) (hstop : decodeNext program m = some (.endConditional false, next)) :
    (⟨machine, ip, depth + 1, true, tops⟩ : DmntCheatVm W).skipConditionalBlock program isIf =
      some ⟨machine, next, depth, true, tops⟩ := by
  have hsize := h.size_le
  have hnext := decodeNext_spec hstop
  obtain ⟨fuel, hfuel⟩ : ∃ fuel, program.length = b.size + (fuel + 1) := ⟨program.length - b.size - 1, by omega⟩
  have hd : depth < depth + 1 := Nat.lt_succ_self depth
  rw [DmntCheatVm.skipConditionalBlock, if_pos (Nat.succ_pos depth), hfuel]
  simp only [Nat.add_sub_cancel]
  rw [skipLoop_laid h _ hd, skipLoop_end hd hstop, Nat.add_sub_cancel, skipLoop_stop (Nat.lt_irrefl depth)]

/-- **Skipping to the else of a block.** -/
theorem skip_to_else (h : Laid program ip b m)
    (hmiddle : decodeNext program m = some (.endConditional true, next)) :
    (⟨machine, ip, depth + 1, true, tops⟩ : DmntCheatVm W).skipConditionalBlock program true =
      some ⟨machine, next, depth + 1, true, tops⟩ := by
  have hsize := h.size_le
  have hnext := decodeNext_spec hmiddle
  obtain ⟨fuel, hfuel⟩ : ∃ fuel, program.length = b.size + (fuel + 1) := ⟨program.length - b.size - 1, by omega⟩
  have hd : depth < depth + 1 := Nat.lt_succ_self depth
  rw [DmntCheatVm.skipConditionalBlock, if_pos (Nat.succ_pos depth), hfuel]
  simp only [Nat.add_sub_cancel]
  rw [skipLoop_laid h _ hd, skipLoop_else hd hmiddle, if_pos ⟨rfl, Nat.add_sub_cancel depth 1⟩]

/-! ## 2. Places -/

/-- In a part of the program, the open blocks are those around it and those inside. -/
def OpenAs (root : Block) (around : Nat) (b : Block) (ip e : Nat) : Prop :=
  ∀ p, ip ≤ p → p ≤ e → root.openAt p = around + b.openAt p

/-- Where a mark is left to: an end at once, an else behind the end of its block. -/
inductive Resumes (program : List Nat) (m : Nat) (mark : Located) : Nat → Prop where
  | stop (hmark : decodeNext program m = some (mark.opcode, mark.next))
      (hend : mark.opcode = .endConditional false) : Resumes program m mark mark.next
  | middle {other : Block} {m' next : Nat} (hmark : decodeNext program m = some (mark.opcode, mark.next))
      (helse : mark.opcode = .endConditional true) (hother : Laid program mark.next other m')
      (hstop : decodeNext program m' = some (.endConditional false, next)) : Resumes program m mark next

/-- The blocks around a part that ends here. Behind the last one the program ends. -/
inductive Framed (program : List Nat) (root : Block) : Nat → List Frame → Prop where
  | nil {e : Nat} (hend : decodeNext program e = none) : Framed program root e []
  | cons {m resume e : Nat} {frame : Frame} {stack : List Frame} (hmark : Resumes program m frame.mark resume)
      (hafter : Laid program resume frame.after e) (hopen : OpenAs root stack.length frame.after resume e)
      (hrest : Framed program root e stack) : Framed program root m (frame :: stack)

/-- **A position of the program is a place of the structured program.** -/
inductive Here (program : List Nat) (root : Block) (ip : Nat) (place : Place) : Prop where
  | mk {e : Nat} (hlaid : Laid program ip place.current e)
      (hopen : OpenAs root place.stack.length place.current ip e) (hframed : Framed program root e place.stack)

theorem Here.openAt {place : Place} (h : Here program root ip place) : root.openAt ip = place.stack.length := by
  obtain ⟨hlaid, hopen, -⟩ := h
  rw [hopen ip (Nat.le_refl _) hlaid.le, hlaid.openAt_outside (.inl (Nat.le_refl _)), Nat.add_zero]

/-! ## 3. One turn -/

/-- **The VM is at the place of the structured program.** -/
structure Matches (program : List Nat) (root : Block) (vm : DmntCheatVm W) (s : Structured W) : Prop where
  machine_eq : vm.machine = s.machine
  success_eq : vm.decodeSuccess = !s.halted
  halted_done : s.halted = true → s.place = ⟨.done, []⟩
  here : Here program root vm.instructionPtr s.place
  depth_eq : vm.conditionDepth = s.place.stack.length
  tops : ∀ r, Here program root (vm.loopTops r) (s.tops r)

/-- The register of a loop end. -/
def loopEnd : Option (Opcode × Nat) → Option Nat
  | some (.controlLoop false regIndex _, _) => some regIndex
  | _ => none

/-- **The jump of a loop end**, if this turn makes one, goes to a position with as many open blocks. -/
def LevelJump (program : List Nat) (root : Block) (vm : DmntCheatVm W) : Prop :=
  ∀ r, loopEnd (decodeNext program vm.instructionPtr) = some r → vm.machine.registers r - 1 ≠ 0 →
    root.openAt (vm.loopTops r) = root.openAt vm.instructionPtr

theorem plain_cases (ho : o.isPlain = true) :
    (∃ r n, o = .controlLoop true r n) ∨ (∃ r n, o = .controlLoop false r n) ∨
      ((∀ vm : DmntCheatVm W, vm.executeOpcode program env o =
          some { vm with machine := (vm.machine.logOpcode vm.instructionPtr o).perform env o }) ∧
        ∀ (s : Structured W) (next : Nat) (rest : Block) (stack : List Frame),
          s.stepPlain env ⟨o, next⟩ rest stack =
            { s with machine := (s.machine.logOpcode next o).perform env o, place := ⟨rest, stack⟩ }) := by
  cases o with
  | controlLoop startLoop r n =>
    cases startLoop with
    | true => exact .inl ⟨r, n, rfl⟩
    | false => exact .inr (.inl ⟨r, n, rfl⟩)
  | endConditional isElse => exact Bool.noConfusion ho
  | beginConditional => exact Bool.noConfusion ho
  | beginKeypressConditional => exact Bool.noConfusion ho
  | beginRegisterConditional => exact Bool.noConfusion ho
  | _ => exact .inr (.inr ⟨fun _ => rfl, fun _ _ _ _ => rfl⟩)

/-! ### Moving in a block -/

section Moves

variable {start middle stop here : Located} {body other rest : Block} {stack : List Frame} {around m' : Nat}

theorem OpenAs.rest_plain (h : OpenAs root around (.plain here rest) ip e) (hle : ip ≤ here.next) :
    OpenAs root around rest here.next e := fun p hp hp' => h p (Nat.le_trans hle hp) hp'

theorem OpenAs.in_body (h : OpenAs root around (.ifThen start body stop rest) ip e)
    (hstart : decodeNext program ip = some (start.opcode, start.next))
    (hstop : decodeNext program m = some (stop.opcode, stop.next)) (hrest : Laid program stop.next rest e) :
    OpenAs root (around + 1) body start.next m := by
  intro p hp hp'
  have h1 := decodeNext_spec hstart
  have h2 := decodeNext_spec hstop
  have hle := hrest.le
  rw [h p (by omega) (by omega), Block.openAt, if_pos (by omega), hrest.openAt_outside (.inl (by omega))]
  omega

theorem OpenAs.rest_ifThen (h : OpenAs root around (.ifThen start body stop rest) ip e)
    (hstart : decodeNext program ip = some (start.opcode, start.next)) (hbody : Laid program start.next body m)
    (hstop : decodeNext program m = some (stop.opcode, stop.next)) :
    OpenAs root around rest stop.next e := by
  intro p hp hp'
  have h1 := decodeNext_spec hstart
  have h2 := decodeNext_spec hstop
  have hle := hbody.le
  rw [h p (by omega) hp', Block.openAt, if_neg (by omega), hbody.openAt_outside (.inr (by omega))]
  omega

/-- The parts of a condition with an else, one behind the other. -/
structure Parts (program : List Nat) (ip e : Nat) (start : Located) (body : Block) (middle : Located)
    (other : Block) (stop : Located) (rest : Block) (m m' : Nat) : Prop where
  start_gt : ip < start.next
  body : Laid program start.next body m
  middle_gt : m < middle.next
  other : Laid program middle.next other m'
  stop_gt : m' < stop.next
  rest : Laid program stop.next rest e

theorem OpenAs.in_then (h : OpenAs root around (.ifElse start body middle other stop rest) ip e)
    (hp : Parts program ip e start body middle other stop rest m m') :
    OpenAs root (around + 1) body start.next m := by
  obtain ⟨hstart, hbody, hmiddle, hother, hstop, hrest⟩ := hp
  have hle := hother.le
  have hle' := hrest.le
  intro p hge hlt
  rw [h p (by omega) (by omega), Block.openAt, if_pos (by omega), hother.openAt_outside (.inl (by omega)),
    hrest.openAt_outside (.inl (by omega))]
  omega

theorem OpenAs.in_else (h : OpenAs root around (.ifElse start body middle other stop rest) ip e)
    (hp : Parts program ip e start body middle other stop rest m m') :
    OpenAs root (around + 1) other middle.next m' := by
  obtain ⟨hstart, hbody, hmiddle, hother, hstop, hrest⟩ := hp
  have hle := hbody.le
  have hle' := hrest.le
  intro p hge hlt
  rw [h p (by omega) (by omega), Block.openAt, if_pos (by omega), hbody.openAt_outside (.inr (by omega)),
    hrest.openAt_outside (.inl (by omega))]
  omega

theorem OpenAs.rest_ifElse (h : OpenAs root around (.ifElse start body middle other stop rest) ip e)
    (hp : Parts program ip e start body middle other stop rest m m') : OpenAs root around rest stop.next e := by
  obtain ⟨hstart, hbody, hmiddle, hother, hstop, hrest⟩ := hp
  have hle := hbody.le
  have hle' := hother.le
  intro p hge hlt
  rw [h p (by omega) hlt, Block.openAt, if_neg (by omega), hbody.openAt_outside (.inr (by omega)),
    hother.openAt_outside (.inr (by omega))]
  omega

end Moves

/-! ### The turn of each part -/

variable {stack : List Frame} {halted : Bool} {tops' : Nat → Place}

theorem step_eq (h : decodeNext program ip = some (o, next)) :
    (⟨machine, ip, depth, true, tops⟩ : DmntCheatVm W).step program env =
      (⟨machine, next, depth, true, tops⟩ : DmntCheatVm W).executeOpcode program env o := by
  rw [DmntCheatVm.step, decodeNextOpcode_eq h]

theorem executeOpcode_begin (ho : o.beginConditionalBlock = true) :
    (⟨machine, ip, depth, true, tops⟩ : DmntCheatVm W).executeOpcode program env o =
      if ((machine.logOpcode ip o).condition env o).1 then
        some ⟨((machine.logOpcode ip o).condition env o).2, ip, depth + 1, true, tops⟩
      else (⟨((machine.logOpcode ip o).condition env o).2, ip, depth + 1, true, tops⟩ :
        DmntCheatVm W).skipConditionalBlock program true :=
  if_pos ho

/-- **A mark that is reached** is left. -/
theorem step_mark {frame : Frame} {resume : Nat} (h : Resumes program ip frame.mark resume) :
    (⟨machine, ip, depth + 1, true, tops⟩ : DmntCheatVm W).step program env =
      some ⟨machine.logOpcode frame.mark.next frame.mark.opcode, resume, depth, true, tops⟩ := by
  cases h with
  | stop hmark hend =>
    rw [step_eq hmark, hend]
    rfl
  | middle hmark helse hother hstop =>
    rw [step_eq hmark, helse]
    exact skip_to_end hother hstop

/-- **A plain opcode.** -/
theorem plain_matches {place : Place} {rest : Block} (ho : o.isPlain = true)
    (hhere : Here program root next ⟨rest, stack⟩) (htops : ∀ r, Here program root (tops r) (tops' r))
    (hlevel : ∀ r n, o = .controlLoop false r n → machine.registers r - 1 ≠ 0 →
      (tops' r).stack.length = stack.length) :
    ∃ vm', (⟨machine, next, stack.length, true, tops⟩ : DmntCheatVm W).executeOpcode program env o = some vm' ∧
      Matches program root vm' ((⟨machine, place, tops', false⟩ : Structured W).stepPlain env ⟨o, next⟩ rest stack) := by
  rcases @plain_cases W program env _ ho with ⟨r, n, rfl⟩ | ⟨r, n, rfl⟩ | ⟨hvm, hs⟩
  · refine ⟨_, rfl, rfl, rfl, fun hh => Bool.noConfusion hh, hhere, rfl, fun r' => ?_⟩
    -- the loop keeps the place behind its start
    show Here program root (Function.update tops r next r') (Function.update tops' r ⟨rest, stack⟩ r')
    by_cases hr : r' = r
    · subst hr
      rw [update_self, update_self]
      exact hhere
    · rw [update_of_ne hr, update_of_ne hr]
      exact htops r'
  · have hreg : ((machine.logOpcode next (.controlLoop false r n)).setRegister r (machine.registers r - 1)).registers
        r = machine.registers r - 1 := update_self _ _ _
    by_cases hr : machine.registers r - 1 ≠ 0
    · have hjump := hreg.symm ▸ hr
      refine ⟨_, if_pos hjump, ?_⟩
      rw [show (⟨machine, place, tops', false⟩ : Structured W).stepPlain env ⟨.controlLoop false r n, next⟩ rest
        stack = _ from if_pos hjump]
      exact ⟨rfl, rfl, fun hh => Bool.noConfusion hh, htops r, (hlevel r n rfl hr).symm, htops⟩
    · have hstay := hreg.symm ▸ hr
      refine ⟨_, if_neg hstay, ?_⟩
      rw [show (⟨machine, place, tops', false⟩ : Structured W).stepPlain env ⟨.controlLoop false r n, next⟩ rest
        stack = _ from if_neg hstay]
      exact ⟨rfl, rfl, fun hh => Bool.noConfusion hh, hhere, rfl, htops⟩
  · refine ⟨_, hvm _, ?_⟩
    rw [hs]
    exact ⟨rfl, rfl, fun hh => Bool.noConfusion hh, hhere, rfl, htops⟩

/-- **One turn is one opcode of the structured program.** -/
theorem step_matches (h : Matches program root vm s) (hlevel : LevelJump program root vm) :
    ∃ vm', vm.step program env = some vm' ∧ Matches program root vm' (s.step env) := by
  obtain ⟨machine, ip, depth, success, tops⟩ := vm
  obtain ⟨machine', ⟨current, stack⟩, tops', halted⟩ := s
  obtain ⟨hmachine, hsuccess, hdone, ⟨hlaid, hopen, hframed⟩, hdepth, htops⟩ := h
  simp only at hmachine hsuccess hdone hlaid hopen hframed hdepth htops
  subst hmachine hdepth
  have hip : root.openAt ip = stack.length := @Here.openAt _ _ _ ⟨current, stack⟩ ⟨hlaid, hopen, hframed⟩
  cases halted with
  | true =>
    obtain rfl : success = false := hsuccess
    obtain ⟨rfl, rfl⟩ := Place.mk.inj (hdone rfl)
    exact ⟨_, rfl, rfl, rfl, fun _ => rfl, ⟨hlaid, hopen, hframed⟩, rfl, htops⟩
  | false =>
    obtain rfl : success = true := hsuccess
    cases hlaid with
    | done =>
      cases hframed with
      | nil hend =>
        refine ⟨⟨machine, ip, 0, false, tops⟩, ?_, rfl, rfl, fun _ => rfl, ⟨.done ip, hopen, .nil hend⟩, rfl,
          htops⟩
        simp only [DmntCheatVm.step, DmntCheatVm.decodeNextOpcode, if_true, hend]
        rfl
      | cons hmark hafter hopen' hrest =>
        exact ⟨_, step_mark hmark, rfl, rfl, fun hh => Bool.noConfusion hh, ⟨hafter, hopen', hrest⟩, rfl, htops⟩
    | @plain _ _ here rest hhere hplain hrest =>
      obtain ⟨o, next⟩ := here
      have hnext := decodeNext_spec hhere
      have hhere' : Here program root next ⟨rest, stack⟩ :=
        ⟨hrest, hopen.rest_plain (Nat.le_of_lt hnext.1), hframed⟩
      rw [step_eq hhere]
      refine plain_matches hplain hhere' htops fun r n ho hr => ?_
      subst ho
      have hsame := hlevel r (by rw [hhere]; rfl) hr
      have htop := (htops r).openAt
      simp only at hsame
      omega
    | ifThen hstart hbegin hbody hstop hend hrest =>
      rw [step_eq hstart, executeOpcode_begin hbegin]
      have hbody' := hopen.in_body hstart hstop hrest
      have hrest' := hopen.rest_ifThen hstart hbody hstop
      simp only [Structured.step]
      split
      · exact ⟨_, rfl, rfl, rfl, fun hh => Bool.noConfusion hh,
          ⟨hbody, hbody', .cons (.stop hstop hend) hrest hrest' hframed⟩, rfl, htops⟩
      · rw [hend] at hstop
        exact ⟨_, skip_to_end hbody hstop, rfl, rfl, fun hh => Bool.noConfusion hh,
          ⟨hrest, hrest', hframed⟩, rfl, htops⟩
    | ifElse hstart hbegin hbody hmiddle helse hother hstop hend hrest =>
      rw [step_eq hstart, executeOpcode_begin hbegin]
      have hparts := Parts.mk (decodeNext_spec hstart).1 hbody (decodeNext_spec hmiddle).1 hother
        (decodeNext_spec hstop).1 hrest
      have hrest' := hopen.rest_ifElse hparts
      simp only [Structured.step]
      split
      · have hstop' := hstop
        rw [hend] at hstop'
        exact ⟨_, rfl, rfl, rfl, fun hh => Bool.noConfusion hh,
          ⟨hbody, hopen.in_then hparts, .cons (.middle hmiddle helse hother hstop') hrest hrest' hframed⟩, rfl,
          htops⟩
      · have hmiddle' := hmiddle
        rw [helse] at hmiddle'
        exact ⟨_, skip_to_else hbody hmiddle', rfl, rfl, fun hh => Bool.noConfusion hh,
          ⟨hother, hopen.in_else hparts, .cons (.stop hstop hend) hrest hrest' hframed⟩, rfl, htops⟩

/-! ## 4. Runs -/

variable {stop : Nat} {static : Nat → UInt64} {world : W}

theorem matches_start (hlaid : Laid program 0 root stop) (hend : decodeNext program stop = none) :
    Matches program root (DmntCheatVm.resetState static world) (Structured.start root static world) := by
  have hhere : Here program root 0 ⟨root, []⟩ :=
    ⟨hlaid, fun p _ _ => (Nat.zero_add _).symm, .nil hend⟩
  exact ⟨rfl, rfl, fun h => Bool.noConfusion h, hhere, rfl, fun _ => hhere⟩

theorem run_matches (hlaid : Laid program 0 root stop) (hend : decodeNext program stop = none) (n : Nat)
    (hlevel : ∀ k < n, ∀ vm, (DmntCheatVm.resetState static world).run program env k = some vm →
      LevelJump program root vm) :
    ∃ vm, (DmntCheatVm.resetState static world).run program env n = some vm ∧
      Matches program root vm ((Structured.start root static world).run env n) := by
  induction n with
  | zero => exact ⟨_, rfl, matches_start hlaid hend⟩
  | succ n ih =>
    obtain ⟨vm, hrun, hmatches⟩ := ih fun k hk => hlevel k (Nat.lt_succ_of_lt hk)
    obtain ⟨vm', hstep, hmatches'⟩ := step_matches hmatches (hlevel n (Nat.lt_succ_self n) vm hrun)
    refine ⟨vm', ?_, hmatches'⟩
    rw [DmntCheatVm.run, hrun]
    exact hstep

/-- **The VM runs a properly nested program as the structured program**: after any number of turns the
registers, the world and the callbacks are the same, the one has ended if the other has, and the depth is the
number of open blocks, as long as every loop goes back to a position with as many open blocks. -/
theorem execute_structured (env : Environment W) (program : List Nat) (root : Block) (stop : Nat)
    (hlaid : Laid program 0 root stop) (hend : decodeNext program stop = none) (static : Nat → UInt64) (world : W)
    (n : Nat)
    (hlevel : ∀ k < n, ∀ vm, (DmntCheatVm.resetState static world).run program env k = some vm →
      LevelJump program root vm) :
    ∃ vm, (DmntCheatVm.resetState static world).run program env n = some vm ∧
      vm.machine = ((Structured.start root static world).run env n).machine ∧
      vm.decodeSuccess = !((Structured.start root static world).run env n).halted ∧
      vm.conditionDepth = root.openAt vm.instructionPtr := by
  obtain ⟨vm, hrun, hmatches⟩ := @run_matches _ _ env _ _ _ _ hlaid hend n hlevel
  exact ⟨vm, hrun, hmatches.machine_eq, hmatches.success_eq, hmatches.depth_eq.trans hmatches.here.openAt.symm⟩

/-! ## 5. Programs with a loop -/

instance (program : List Nat) (root : Block) (vm : DmntCheatVm W) : Decidable (LevelJump program root vm) :=
  match h : loopEnd (decodeNext program vm.instructionPtr) with
  | none => isTrue fun r hr => by
    rw [h] at hr
    cases hr
  | some r =>
    decidable_of_iff
      (vm.machine.registers r - 1 ≠ 0 → root.openAt (vm.loopTops r) = root.openAt vm.instructionPtr)
      ⟨fun hr r' hr' => by
        rw [h] at hr'
        exact Option.some.inj hr' ▸ hr, fun hl => hl r h⟩

/-- A world of nothing, in which no key is down. -/
def quietEnvironment : Environment Unit :=
  ⟨fun w _ _ => (0, w), fun w _ _ _ => w, fun w => w, fun w => w, fun w _ _ => w, 0, 0, 0, 0, 0⟩

/-- A block with a loop that stores twice. -/
def loopInBlock : List Nat := [0x80000000, 0x30000000, 2, 0x04000000, 0x10, 1, 0x31000000, 0x20000000]

def loopInBlockRoot : Block :=
  .ifThen ⟨.beginKeypressConditional 0, 1⟩
    (.plain ⟨.controlLoop true 0 2, 3⟩ (.plain ⟨.storeStatic 4 0 0 0x10 1, 6⟩ (.plain ⟨.controlLoop false 0 0, 7⟩ .done)))
    ⟨.endConditional false, 8⟩ .done

theorem execute_structured_loopInBlock :
    ∃ vm, (DmntCheatVm.resetState (fun _ => 0) ()).run loopInBlock quietEnvironment 8 = some vm ∧
      vm.machine = ((Structured.start loopInBlockRoot (fun _ => 0) ()).run quietEnvironment 8).machine ∧
      vm.decodeSuccess = !((Structured.start loopInBlockRoot (fun _ => 0) ()).run quietEnvironment 8).halted ∧
      vm.conditionDepth = loopInBlockRoot.openAt vm.instructionPtr := by
  have hlaid : Laid loopInBlock 0 loopInBlockRoot 8 :=
    .ifThen (by decide +kernel) (by decide)
      (.plain (by decide +kernel) (by decide) (.plain (by decide +kernel) (by decide)
        (.plain (by decide +kernel) (by decide) (.done 7)))) (by decide +kernel) rfl (.done 8)
  have hcheck : ∀ k < 8, ∀ vm ∈ (DmntCheatVm.resetState (fun _ => 0) ()).run loopInBlock quietEnvironment k,
      LevelJump loopInBlock loopInBlockRoot vm := by
    intro k hk
    have hall : ∀ k < 8, ((DmntCheatVm.resetState (fun _ => 0) ()).run loopInBlock quietEnvironment k).all
        (fun vm => decide (LevelJump loopInBlock loopInBlockRoot vm)) = true := by decide +kernel
    intro vm hvm
    have hlevel := hall k hk
    rw [Option.mem_def.mp hvm] at hlevel
    exact of_decide_eq_true hlevel
  exact execute_structured quietEnvironment loopInBlock loopInBlockRoot 8 hlaid (by decide +kernel) _ _ 8 hcheck

/-- A loop that begins in a branch and ends behind the block: it goes back into the branch. -/
def loopAcrossBlock : List Nat := [0x80000000, 0x30000000, 2, 0x21000000, 0x20000000, 0x31000000]

def loopAcrossBlockRoot : Block :=
  .ifElse ⟨.beginKeypressConditional 0, 1⟩ (.plain ⟨.controlLoop true 0 2, 3⟩ .done) ⟨.endConditional true, 4⟩ .done
    ⟨.endConditional false, 5⟩ (.plain ⟨.controlLoop false 0 0, 6⟩ .done)

/-- **A loop across the end of a block** takes the VM to the else of the block at depth 0, where it crashes,
although the program is properly nested. -/
theorem not_structured_of_crossing :
    ¬∀ (env : Environment Unit) (program : List Nat) (root : Block) (stop : Nat), Laid program 0 root stop →
      decodeNext program stop = none → ∀ (static : Nat → UInt64) (n : Nat),
        ∃ vm, (DmntCheatVm.resetState static ()).run program env n = some vm ∧
          vm.machine = ((Structured.start root static ()).run env n).machine ∧
          vm.decodeSuccess = !((Structured.start root static ()).run env n).halted ∧
          vm.conditionDepth = root.openAt vm.instructionPtr := by
  intro h
  have hlaid : Laid loopAcrossBlock 0 loopAcrossBlockRoot 6 :=
    .ifElse (by decide +kernel) (by decide) (.plain (by decide +kernel) (by decide) (.done 3)) (by decide +kernel)
      rfl (.done 4) (by decide +kernel) rfl (.plain (by decide +kernel) (by decide) (.done 6))
  obtain ⟨vm, hrun, -⟩ := h quietEnvironment loopAcrossBlock loopAcrossBlockRoot 6 hlaid (by decide +kernel)
    (fun _ => 0) 5
  have hcrash : ((DmntCheatVm.resetState (fun _ => 0) ()).run loopAcrossBlock quietEnvironment 5).isNone = true := by
    decide +kernel
  rw [hrun] at hcrash
  cases hcrash

end Yuzu.Core.Cheat
