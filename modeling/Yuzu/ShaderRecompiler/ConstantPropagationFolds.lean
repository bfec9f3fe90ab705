/-
  File:      Yuzu/ShaderRecompiler/ConstantPropagationFolds.lean
  Subject:   What each fold of constant propagation does to the value of its instruction: the folds
             that keep it, and for the others the condition under which they do.
-/
import Yuzu.ShaderRecompiler.ConstantPropagation
import Yuzu.ShaderRecompiler.IrMeaning

namespace Yuzu.Shader

variable {σ : Assignment} {env : Environment} {h : Heap} {s s' : State} {id : Nat}
  {inst inst' : Inst} {v w : Value} {x y : Val} {α : Type}

/-! ## 1. Replacements and shapes -/

theorem instMeaning_replaceUsesWith (hv : argValue σ h v = some x) :
    instMeaning σ (valueOf σ h) id (inst.replaceUsesWith v) = some x := by
  have hv' : denote (valueOf σ h) v = some x := hv
  simp [instMeaning, Inst.replaceUsesWith, denoteAll, hv', apply]

theorem instMeaning_two (hv : argValue σ h v = some x) (hw : argValue σ h w = some y)
    (hargs : inst.args = [v, w]) :
    instMeaning σ (valueOf σ h) id inst = apply σ id inst.op [x, y] := by
  have hv' : denote (valueOf σ h) v = some x := hv
  have hw' : denote (valueOf σ h) w = some y := hw
  simp [instMeaning, hargs, denoteAll, hv', hw']

variable {f : BitVec 32 → BitVec 32 → Val}

theorem two_words (hop : ∀ vals, apply σ id inst.op vals = onWords vals f)
    (hx : instMeaning σ (valueOf σ h) id inst = some x) :
    ∃ a b, argValue σ h (inst.arg 0) = some (.u32 a) ∧ argValue σ h (inst.arg 1) = some (.u32 b) ∧
      x = f a b := by
  obtain ⟨vals, hvals, happly⟩ := Option.bind_eq_some_iff.mp hx
  rw [hop] at happly
  unfold onWords at happly
  split at happly
  · next a b =>
    cases happly
    exact ⟨a, b, argValue_arg hvals rfl, argValue_arg hvals rfl, rfl⟩
  · cases happly

theorem two_bools {f : Bool → Bool → Bool} (hop : ∀ vals, apply σ id inst.op vals = onBools vals f)
    (hx : instMeaning σ (valueOf σ h) id inst = some x) :
    ∃ a b, argValue σ h (inst.arg 0) = some (.u1 a) ∧ argValue σ h (inst.arg 1) = some (.u1 b) ∧
      x = .u1 (f a b) := by
  obtain ⟨vals, hvals, happly⟩ := Option.bind_eq_some_iff.mp hx
  rw [hop] at happly
  unfold onBools at happly
  split at happly
  · next a b =>
    cases happly
    exact ⟨a, b, argValue_arg hvals rfl, argValue_arg hvals rfl, rfl⟩
  · cases happly

theorem three_words {f : BitVec 32 → BitVec 32 → BitVec 32 → BitVec 32}
    (hop : ∀ vals, apply σ id inst.op vals = onField vals f)
    (hx : instMeaning σ (valueOf σ h) id inst = some x) :
    ∃ a b c, argValue σ h (inst.arg 0) = some (.u32 a) ∧
      argValue σ h (inst.arg 1) = some (.u32 b) ∧ argValue σ h (inst.arg 2) = some (.u32 c) ∧
      x = .u32 (f a b c) := by
  obtain ⟨vals, hvals, happly⟩ := Option.bind_eq_some_iff.mp hx
  rw [hop] at happly
  unfold onField at happly
  split at happly
  · next a b c =>
    cases happly
    exact ⟨a, b, c, argValue_arg hvals rfl, argValue_arg hvals rfl, argValue_arg hvals rfl, rfl⟩
  · cases happly

/-! ## 2. All arguments immediate -/

variable {args : Nat → BitVec 32}

/-- What `FoldCommutative` needs of the opcode: its operands are the immediates of one type, and
    its function is commutative and associative. -/
structure Commutes (σ : Assignment) (h : Heap) (op : Opcode) (imm : Heap → Value → α)
    (val : α → Value) (inj : α → Val) (fn : α → α → α) : Prop where
  operands : ∀ (id : Nat) (inst : Inst) (x : Val), inst.op = op → instMeaning σ (valueOf σ h) id inst = some x →
    ∃ a b, argValue σ h (inst.arg 0) = some (inj a) ∧ argValue σ h (inst.arg 1) = some (inj b) ∧
      x = inj (fn a b)
  computes : ∀ (id : Nat) (inst : Inst) (v w : Value) (a b : α), inst.op = op → argValue σ h v = some (inj a) →
    argValue σ h w = some (inj b) →
    instMeaning σ (valueOf σ h) id (inst.setArgs v w) = some (inj (fn a b))
  reads : ∀ v a, isImmediate h v = true → argValue σ h v = some (inj a) → imm h v = a
  writes : ∀ a, argValue σ h (val a) = some (inj a)
  injective : ∀ a b, inj a = inj b → a = b
  comm : ∀ a b, fn a b = fn b a
  assoc : ∀ a b c, fn (fn a b) c = fn a (fn b c)

theorem Commutes.iAdd32 (hd : Distinct h) : Commutes σ h .iAdd32 immU32 .u32 .u32 (· + ·) where
  operands id inst x hop hx := two_words (fun vals => by rw [hop]; rfl) hx
  computes id inst v w a b hop hv hw := by
    rw [instMeaning_two hv hw rfl]
    simp [Inst.setArgs, hop, apply, onWords]
  reads v a himm hv := immU32_eq hd himm hv
  writes a := rfl
  injective _ _ h := by cases h; rfl
  comm := BitVec.add_comm
  assoc := BitVec.add_assoc

theorem Commutes.iAdd64 (hd : Distinct h) : Commutes σ h .iAdd64 immU64 .u64 .u64 (· + ·) where
  operands id inst x hop hx := by
    obtain ⟨vals, hvals, happly⟩ := Option.bind_eq_some_iff.mp hx
    rw [hop] at happly
    simp only [apply] at happly
    split at happly
    · next a b =>
      cases happly
      exact ⟨a, b, argValue_arg hvals rfl, argValue_arg hvals rfl, rfl⟩
    · cases happly
  computes id inst v w a b hop hv hw := by
    rw [instMeaning_two hv hw rfl]
    simp [Inst.setArgs, hop, apply]
  reads v a himm hv := immU64_eq hd himm hv
  writes a := rfl
  injective _ _ h := by cases h; rfl
  comm := BitVec.add_comm
  assoc := BitVec.add_assoc

theorem Commutes.logicalAnd (hd : Distinct h) : Commutes σ h .logicalAnd immU1 .u1 .u1 (· && ·) where
  operands id inst x hop hx := two_bools (fun vals => by rw [hop]; rfl) hx
  computes id inst v w a b hop hv hw := by
    rw [instMeaning_two hv hw rfl]
    simp [Inst.setArgs, hop, apply, onBools]
  reads v a himm hv := immU1_eq hd himm hv
  writes a := rfl
  injective _ _ h := by cases h; rfl
  comm := Bool.and_comm
  assoc := Bool.and_assoc

theorem Commutes.logicalOr (hd : Distinct h) : Commutes σ h .logicalOr immU1 .u1 .u1 (· || ·) where
  operands id inst x hop hx := two_bools (fun vals => by rw [hop]; rfl) hx
  computes id inst v w a b hop hv hw := by
    rw [instMeaning_two hv hw rfl]
    simp [Inst.setArgs, hop, apply, onBools]
  reads v a himm hv := immU1_eq hd himm hv
  writes a := rfl
  injective _ _ h := by cases h; rfl
  comm := Bool.or_comm
  assoc := Bool.or_assoc

variable {found : Nat × Inst}

theorem instWith_spec {op : Opcode} (hw : instWith h v op = some found) :
    instRecursive h v = some found ∧ found.2.op = op := by
  rw [instWith, Option.filter_eq_some_iff] at hw
  exact ⟨hw.1, by simpa using hw.2⟩

theorem instWith_words (hd : Distinct h) {op : Opcode} (hw : instWith h v op = some found)
    (hop : ∀ id vals, apply σ id op vals = onWords vals f) (hx : argValue σ h v = some x) :
    ∃ a b, argValue σ h (found.2.arg 0) = some (.u32 a) ∧
      argValue σ h (found.2.arg 1) = some (.u32 b) ∧ x = f a b := by
  obtain ⟨hrec, rfl⟩ := instWith_spec hw
  exact two_words (hop found.1) (instMeaning_of_instRecursive hd hrec hx)

variable {m : BitVec 32}

theorem instWith_mul (hd : Distinct h) (hw : instWith h v .iMul32 = some found)
    (hx : argValue σ h v = some (.u32 m)) :
    ∃ a b, argValue σ h (found.2.arg 0) = some (.u32 a) ∧
      argValue σ h (found.2.arg 1) = some (.u32 b) ∧ m = a * b := by
  obtain ⟨a, b, ha, hb, heq⟩ := instWith_words hd hw (fun _ _ => rfl) hx
  exact ⟨a, b, ha, hb, by cases heq; rfl⟩

theorem instWith_add (hd : Distinct h) (hw : instWith h v .iAdd32 = some found)
    (hx : argValue σ h v = some (.u32 m)) :
    ∃ a b, argValue σ h (found.2.arg 0) = some (.u32 a) ∧
      argValue σ h (found.2.arg 1) = some (.u32 b) ∧ m = a + b := by
  obtain ⟨a, b, ha, hb, heq⟩ := instWith_words hd hw (fun _ _ => rfl) hx
  exact ⟨a, b, ha, hb, by cases heq; rfl⟩

theorem shiftedBySixteen_value (hd : Distinct h) {source : Value} (hs : shiftedBySixteen h v = some source)
    (hx : argValue σ h v = some (.u32 m)) :
    ∃ a, argValue σ h source = some (.u32 a) ∧ m = a <<< 16 := by
  obtain ⟨found, hfound, rfl⟩ := Option.map_eq_some_iff.mp hs
  rw [Option.filter_eq_some_iff] at hfound
  obtain ⟨hw, h16⟩ := hfound
  obtain ⟨a, b, ha, hb, heq⟩ := instWith_words hd hw (fun _ _ => rfl) hx
  rw [of_decide_eq_true h16] at hb
  cases hb
  exact ⟨a, ha, by cases heq; rfl⟩

theorem halfOf_value (hd : Distinct h) {offset : BitVec 32} {source : Value}
    (hs : halfOf h v offset = some source) (hoff : offset.toNat ≤ 16)
    (hx : argValue σ h v = some (.u32 m)) :
    ∃ a, argValue σ h source = some (.u32 a) ∧ m = fieldU a offset.toNat 16 := by
  obtain ⟨found, hfound, rfl⟩ := Option.map_eq_some_iff.mp hs
  rw [Option.filter_eq_some_iff] at hfound
  obtain ⟨hw, h16⟩ := hfound
  obtain ⟨hrec, hop⟩ := instWith_spec hw
  obtain ⟨a, b, c, ha, hb, hc, heq⟩ := three_words (f := σ.uExtract)
    (fun vals => by rw [hop]; rfl) (instMeaning_of_instRecursive hd hrec hx)
  obtain ⟨h1, h2⟩ := of_decide_eq_true h16
  rw [h1] at hb
  rw [h2] at hc
  cases hb
  cases hc
  cases heq
  refine ⟨a, ha, ?_⟩
  rw [Assignment.uExtract, if_pos (by simpa using by omega)]
  rfl

theorem argValue_eq_of_resolve (hd : Distinct h) (hr : resolve h v = resolve h w)
    (hv : argValue σ h v = some x) (hw : argValue σ h w = some y) : x = y := by
  have hv' := argValue_resolve hd hv
  rw [hr, argValue_resolve hd hw] at hv'
  cases hv'
  rfl

theorem matchXmadMultiply_value (hd : Distinct h) (hop : inst.op = .iAdd32)
    (hx : instMeaning σ (valueOf σ h) id inst = some x) {factorA factorB : Value}
    (hm : matchXmadMultiply h inst = some (factorA, factorB)) :
    ∃ a b, argValue σ h factorA = some (.u32 a) ∧ argValue σ h factorB = some (.u32 b) ∧
      x = .u32 (a * b) := by
  obtain ⟨l, r, hl, hr, rfl⟩ := two_words (f := fun a b => .u32 (a + b)) (fun vals => by rw [hop]; rfl) hx
  simp only [matchXmadMultiply, Option.bind_eq_bind, Option.bind_eq_some_iff, Prod.exists,
    Option.pure_def, Option.some.injEq, Prod.mk.injEq, Option.guard_eq_some'] at hm
  obtain ⟨idR, rhsMul, hrhs, lhsShl, hshl, idL, lhsMul, hlhs, -, hmul, -, hsame,
    factorA', hfa, factorA'', hfa', -, hsameA, rfl, rfl⟩ := hm
  obtain ⟨s, hs, rfl⟩ := shiftedBySixteen_value hd hshl hl
  obtain ⟨hi, b, hhi, hb, rfl⟩ := instWith_mul hd hlhs hs
  obtain ⟨lo, b', hlo, hb', heq⟩ := two_words (f := fun a b => .u32 (a * b))
    (fun vals => by rw [hmul]; rfl) (instMeaning_of_instRecursive hd hrhs hr)
  obtain rfl : r = lo * b' := by cases heq; rfl
  obtain rfl : b = b' := by
    have h := argValue_eq_of_resolve hd hsame hb hb'
    cases h
    rfl
  obtain ⟨a, ha, rfl⟩ := halfOf_value hd hfa (by decide) hhi
  obtain ⟨a', ha', rfl⟩ := halfOf_value hd hfa' (by decide) hlo
  obtain rfl : a = a' := by
    have h := argValue_eq_of_resolve hd hsameA ha ha'
    cases h
    rfl
  exact ⟨a, b, ha, hb, congrArg Val.u32 (mul_by_halves (by decide))⟩

theorem equalCbuf_value (hd : Distinct h) {a b : Nat × Inst} (hc : equalCbuf a.2 b.2)
    (ha : instRecursive h v = some a) (hb : instRecursive h w = some b)
    (hv : argValue σ h v = some x) (hw : argValue σ h w = some y) :
    ∃ word, x = .u32 word ∧ y = .u32 word := by
  obtain ⟨hopA, hopB, h0, h1⟩ := hc
  obtain ⟨bank, off, hbank, hoff, rfl⟩ := two_words
    (f := fun bank offset => .u32 (σ.word bank offset)) (fun vals => by rw [hopA]; rfl)
    (instMeaning_of_instRecursive hd ha hv)
  obtain ⟨bank', off', hbank', hoff', rfl⟩ := two_words
    (f := fun bank offset => .u32 (σ.word bank offset)) (fun vals => by rw [hopB]; rfl)
    (instMeaning_of_instRecursive hd hb hw)
  rw [h0, hbank'] at hbank
  rw [h1, hoff'] at hoff
  cases hbank
  cases hoff
  exact ⟨_, rfl, rfl⟩

theorem equalValues_value (hd : Distinct h) (heq : equalValues h v w = true)
    (hv : argValue σ h v = some x) (hw : argValue σ h w = some y) : x = y := by
  rcases Bool.or_eq_true_iff.mp heq with hvw | hcbuf
  · rw [of_decide_eq_true hvw, hw] at hv
    cases hv
    rfl
  · split at hcbuf
    · next ida a idb b ha hb =>
      obtain ⟨word, rfl, rfl⟩ := equalCbuf_value hd (of_decide_eq_true hcbuf) ha hb hv hw
      rfl
    · cases hcbuf

theorem areEqual_value (hd : Distinct h) {u : Value} {z : Val} (heq : areEqual h v w u = true)
    (hv : argValue σ h v = some x) (hw : argValue σ h w = some y) (hu : argValue σ h u = some z) :
    x = y ∧ y = z := by
  obtain ⟨h1, h2⟩ := Bool.and_eq_true_iff.mp heq
  have hw' := argValue_resolve hd hw
  exact ⟨equalValues_value hd h1 (argValue_resolve hd hv) hw',
    equalValues_value hd h2 hw' (argValue_resolve hd hu)⟩

theorem instWith_insert (hd : Distinct h) (hw : instWith h v .bitFieldInsert = some found)
    (hx : argValue σ h v = some (.u32 m)) :
    ∃ base ins off cnt, argValue σ h (found.2.arg 0) = some (.u32 base) ∧
      argValue σ h (found.2.arg 1) = some (.u32 ins) ∧
      argValue σ h (found.2.arg 2) = some (.u32 off) ∧
      argValue σ h (found.2.arg 3) = some (.u32 cnt) ∧ m = σ.insert base ins off cnt := by
  obtain ⟨hrec, hop⟩ := instWith_spec hw
  obtain ⟨vals, hvals, happly⟩ :=
    Option.bind_eq_some_iff.mp (instMeaning_of_instRecursive hd hrec hx)
  rw [hop] at happly
  simp only [apply] at happly
  split at happly
  · next base ins off cnt =>
    cases happly
    exact ⟨base, ins, off, cnt, argValue_arg hvals rfl, argValue_arg hvals rfl,
      argValue_arg hvals rfl, argValue_arg hvals rfl, rfl⟩
  · cases happly

theorem argValue_eq_of_id (hd : Distinct h) {a b : Nat × Inst} (ha : instRecursive h v = some a)
    (hb : instRecursive h w = some b) (hid : a.1 = b.1) (hv : argValue σ h v = some x)
    (hw : argValue σ h w = some y) : x = y := by
  have hname : ∀ {u : Value} {found : Nat × Inst}, instRecursive h u = some found →
      resolve h u = .inst found.1 := by
    intro u found hu
    unfold instRecursive at hu
    split at hu
    · next hr =>
      obtain ⟨i, -, rfl⟩ := Option.map_eq_some_iff.mp hu
      exact hr
    · cases hu
  exact argValue_eq_of_resolve hd ((hname ha).trans (hid ▸ (hname hb).symm)) hv hw

theorem matchHighProduct_value (hd : Distinct h) {v22 : Value}
    (hm : matchHighProduct h v = some (v22, found)) {l : BitVec 32}
    (hl : argValue σ h v = some (.u32 l)) :
    ∃ v23 b m, instRecursive h v23 = some found ∧ found.2.op = .bitFieldInsert ∧
      argValue σ h v22 = some (.u32 b) ∧ argValue σ h v23 = some (.u32 m) ∧
      l = (fieldU b 16 16 * fieldU m 16 16) <<< 16 := by
  simp only [matchHighProduct, Option.bind_eq_bind, Option.bind_eq_some_iff, Prod.exists,
    Option.pure_def, Option.some.injEq, Prod.mk.injEq] at hm
  obtain ⟨v25, h25, id24, v24, h24, v22, h22, v23, h23, id11, v11, h11, rfl, rfl⟩ := hm
  obtain ⟨s, hs, rfl⟩ := shiftedBySixteen_value hd h25 hl
  obtain ⟨bh, t, hbh, ht, rfl⟩ := instWith_mul hd h24 hs
  obtain ⟨b, hb, rfl⟩ := halfOf_value hd h22 (by decide) hbh
  obtain ⟨m, hm, rfl⟩ := halfOf_value hd h23 (by decide) ht
  exact ⟨v23, b, m, (instWith_spec h11).1, (instWith_spec h11).2, hb, hm, rfl⟩

theorem matchCrossProduct_value (hd : Distinct h) {v11 : Nat × Inst}
    (hrec : instRecursive h w = some v11) (hop : v11.2.op = .bitFieldInsert)
    {v10 v6 v7 : Value} (hm : matchCrossProduct h v11.2 = some (v10, v6, v7))
    (hx : argValue σ h w = some (.u32 m)) :
    ∃ a b a', argValue σ h v7 = some (.u32 a) ∧ argValue σ h v6 = some (.u32 b) ∧
      argValue σ h v10 = some (.u32 a') ∧
      m = fieldInsert (fieldU b 0 16 * fieldU a 16 16) (fieldU a' 0 16) 16 16 := by
  simp only [matchCrossProduct, Option.bind_eq_bind, Option.bind_eq_some_iff, Prod.exists,
    Option.pure_def, Option.some.injEq, Prod.mk.injEq, Option.guard_eq_some'] at hm
  obtain ⟨-, ⟨hoff16, hcnt16⟩, id8, v8, h8, v10, h10, v6, h6, v7, h7, rfl, rfl, rfl⟩ := hm
  have hw : instWith h w .bitFieldInsert = some v11 := by
    rw [instWith, hrec]
    simp [hop]
  obtain ⟨base, ins, off, cnt, hbase, hins, hoff, hcnt, rfl⟩ := instWith_insert hd hw hx
  rw [hoff16] at hoff
  rw [hcnt16] at hcnt
  cases hoff
  cases hcnt
  obtain ⟨bl, ah, hbl, hah, rfl⟩ := instWith_mul hd h8 hbase
  obtain ⟨a', ha', rfl⟩ := halfOf_value hd h10 (by decide) hins
  obtain ⟨b, hb, rfl⟩ := halfOf_value hd h6 (by decide) hbl
  obtain ⟨a, ha, rfl⟩ := halfOf_value hd h7 (by decide) hah
  exact ⟨a, b, a', ha, hb, ha', if_pos (by decide)⟩

theorem matchLowSum_value (hd : Distinct h) {v26 v15 v16 opC : Value}
    (hm : matchLowSum h v = some (v26, v15, v16, opC)) {r : BitVec 32}
    (hr : argValue σ h v = some (.u32 r)) :
    ∃ m b a c, argValue σ h v26 = some (.u32 m) ∧ argValue σ h v15 = some (.u32 b) ∧
      argValue σ h v16 = some (.u32 a) ∧ argValue σ h opC = some (.u32 c) ∧
      r = m <<< 16 + (fieldU b 0 16 * fieldU a 0 16 + c) := by
  simp only [matchLowSum, Option.bind_eq_bind, Option.bind_eq_some_iff, Prod.exists,
    Option.pure_def, Option.some.injEq, Prod.mk.injEq] at hm
  obtain ⟨id27, v27, h27, v26, h26, id18, v18, h18, id17, v17, h17, v15, h15, v16, h16,
    rfl, rfl, rfl, rfl⟩ := hm
  obtain ⟨p, q, hp, hq, rfl⟩ := instWith_add hd h27 hr
  obtain ⟨m, hm, rfl⟩ := shiftedBySixteen_value hd h26 hp
  obtain ⟨e, c, he, hc, rfl⟩ := instWith_add hd h18 hq
  obtain ⟨bl, al, hbl, hal, rfl⟩ := instWith_mul hd h17 he
  obtain ⟨b, hb, rfl⟩ := halfOf_value hd h15 (by decide) hbl
  obtain ⟨a, ha, rfl⟩ := halfOf_value hd h16 (by decide) hal
  exact ⟨m, b, a, c, hm, hb, ha, hc, rfl⟩

theorem xmad_multiply_add (a b c : BitVec 32) :
    (fieldU b 16 16 * fieldU (fieldInsert (fieldU b 0 16 * fieldU a 16 16) (fieldU a 0 16) 16 16)
        16 16) <<< 16 +
      (fieldInsert (fieldU b 0 16 * fieldU a 16 16) (fieldU a 0 16) 16 16 <<< 16 +
        (fieldU b 0 16 * fieldU a 0 16 + c)) = a * b + c := by
  have hlow : fieldU (fieldU a 0 16) 0 16 = fieldU a 0 16 := by
    refine BitVec.eq_of_getLsbD_eq fun i hi => ?_
    rw [getLsbD_fieldU, Nat.zero_add, getLsbD_fieldU, ← Bool.and_assoc, Bool.and_self]
  have hquarters := mul_by_quarters (a := a) (b := b) (show 16 + 16 = 32 by rfl) rfl
  rw [fieldInsert_shiftLeft (by decide), fieldU_fieldInsert (by decide), hlow, ← hquarters,
    BitVec.add_assoc, BitVec.add_assoc]

theorem matchXmadMultiplyAdd_value (hd : Distinct h) (hop : inst.op = .iAdd32)
    (hx : instMeaning σ (valueOf σ h) id inst = some x) {va vb vc : Value}
    (hm : matchXmadMultiplyAdd h inst = some (va, vb, vc)) :
    ∃ a b c, argValue σ h va = some (.u32 a) ∧ argValue σ h vb = some (.u32 b) ∧
      argValue σ h vc = some (.u32 c) ∧ x = .u32 (a * b + c) := by
  obtain ⟨l, r, hl, hr, rfl⟩ := two_words (f := fun a b => .u32 (a + b)) (fun vals => by rw [hop]; rfl) hx
  simp only [matchXmadMultiplyAdd, Option.bind_eq_bind, Option.bind_eq_some_iff, Prod.exists,
    Option.pure_def, Option.some.injEq, Prod.mk.injEq, Option.guard_eq_some'] at hm
  obtain ⟨v22, id11, v11, hhigh, v10, v6, v7, hcross, v26, v15, v16, opC, hsum, -, hsame, -,
    ⟨hA, hB⟩, rfl, rfl, rfl⟩ := hm
  obtain ⟨v23, b1, m, h11, hop11, hb1, hm, rfl⟩ := matchHighProduct_value hd hhigh hl
  obtain ⟨a1, b2, a3, ha1, hb2, ha3, rfl⟩ := matchCrossProduct_value hd h11 hop11 hcross hm
  obtain ⟨m', b3, a2, c, hm', hb3, ha2, hc, rfl⟩ := matchLowSum_value hd hsum hr
  -- the operands the pattern repeats are equal
  obtain ⟨found, hfound, hid⟩ := Option.map_eq_some_iff.mp hsame
  cases argValue_eq_of_id hd hfound h11 hid hm' hm
  obtain ⟨h12, h23⟩ := areEqual_value hd hA ha1 ha2 ha3
  cases h12
  cases h23
  obtain ⟨h12, h23⟩ := areEqual_value hd hB hb1 hb2 hb3
  cases h12
  cases h23
  exact ⟨a1, b1, c, argValue_resolve hd ha1, argValue_resolve hd hb2, hc,
    congrArg Val.u32 (xmad_multiply_add a1 b1 c)⟩

/-! ## 6. New instructions -/

/-- Every instruction has its own name, below the next new one. -/
structure State.Ok (s : State) : Prop where
  distinct : Distinct s.heap
  below : ∀ id ∈ s.heap.map Line.id, id < s.next

/-- New instructions stand in front of the old, under new names. -/
structure Grows (s s' : State) : Prop where
  ok : s.Ok → s'.Ok
  le : s.next ≤ s'.next
  heap : ∃ new : Heap, s'.heap = new ++ s.heap ∧ ∀ l ∈ new, s.next ≤ l.id

theorem Grows.refl (s : State) : Grows s s := ⟨id, le_rfl, [], rfl, by simp⟩

theorem Grows.trans {s'' : State} (h1 : Grows s s') (h2 : Grows s' s'') : Grows s s'' := by
  obtain ⟨new1, heq1, hnew1⟩ := h1.heap
  obtain ⟨new2, heq2, hnew2⟩ := h2.heap
  refine ⟨h2.ok ∘ h1.ok, h1.le.trans h2.le, new2 ++ new1, ?_, fun l hl => ?_⟩
  · rw [heq2, heq1, List.append_assoc]
  · rcases List.mem_append.mp hl with hl | hl
    · exact h1.le.trans (hnew2 l hl)
    · exact hnew1 l hl

theorem Grows.emit (s : State) (inst : Inst) : Grows s (s.emit inst).1 where
  ok hok := by
    refine ⟨List.nodup_cons.mpr ⟨fun hmem => ?_, hok.distinct⟩, fun id hid => ?_⟩
    · exact absurd (hok.below _ hmem) (lt_irrefl _)
    · rcases List.mem_cons.mp hid with rfl | hid
      · exact Nat.lt_succ_self _
      · exact Nat.lt_succ_of_lt (hok.below id hid)
  le := Nat.le_succ _
  heap := ⟨[⟨s.next, inst⟩], rfl, by simp⟩

/-- **New instructions change no value.** -/
theorem Grows.refines (hg : Grows s s') (hok : s.Ok) : Refines (instMeaning σ) s.heap s'.heap := by
  intro id x hx
  obtain ⟨new, heq, hnew⟩ := hg.heap
  have hid : id ∉ new.map Line.id := by
    intro hmem
    obtain ⟨l, hl, rfl⟩ := List.mem_map.mp hmem
    exact absurd (hok.below _ (lineValue_mem hx)) (Nat.not_lt.mpr (hnew l hl))
  rw [heq, lineValue_append_of_notMem hid, hx]

theorem argValue_emit : argValue σ (s.emit inst).1.heap (s.emit inst).2 =
      instMeaning σ (valueOf σ s.heap) s.next inst :=
  lineValue_self

end Yuzu.Shader
