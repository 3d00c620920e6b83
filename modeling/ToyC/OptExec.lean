import ToyC.ConstOps
import ToyC.NaiveExec

/-!
# What the optimized code of an instruction does

The code of an instruction other than a call changes one place: the register or the spill
slot of its result, `a0` where the return is fused into it, or the named global
(`target`). There it leaves the value of the operation (`Inst.value`). Beside that it
changes the two registers for operands and the one for addresses, which no vreg is in
(`Assigns`).

An operation with an immediate has code of its own, which reads the other operand only
(`emitUnary_leaves`); the rest is the two operands, the operation, and where that takes two
instructions, the second one on the result of the first.
-/

namespace ToyC

open Rv32

/-- The globals as memory holds them. -/
def globalsIn (m : IRModule) (sym : String → BitVec 32) (σ : Data) : Globals := fun gid =>
  σ.mem (sym (m.globalName gid))

namespace OptCodeGen

/-- A place of the machine: a register or a word of memory. -/
abbrev Place := XReg ⊕ BitVec 32

/-- What a place holds. -/
def Place.read (p : Place) (σ : Data) : Word :=
  match p with
  | .inl x => σ.get x
  | .inr a => σ.mem a

/-- The registers that the code of an instruction other than a remainder may change. -/
def temps : List XReg := [scratch0, scratch1, XReg.a7]

/-- **One place is assigned a value**, and nothing else changes but the registers for
temporary values. -/
structure Assigns (p : Place) (w : Word) (σ σ' : Data) : Prop where
  held : p.read σ' = w
  regs : ∀ x, x ∉ temps → p ≠ .inl x → σ'.get x = σ.get x
  mem : ∀ a, p ≠ .inr a → σ'.mem a = σ.mem a

/-- **Where an instruction leaves its value**: a store in the named global, the others in
the location of the destination, unless that is overridden. -/
def target (m : IRModule) (sym : String → BitVec 32) (fr : Frame) (A : Allocation)
    (override : Option XReg) (inst : Inst) (σ : Data) : Place :=
  if inst.op = .StoreGlobal then .inr (sym (m.globalName inst.gid))
  else
    match override.or (A.reg (inst.dst.getD 0)) with
    | some x => .inl x
    | none => .inr (slotAddr fr A (σ.get XReg.sp) (inst.dst.getD 0))

section Code

variable {sym : String → BitVec 32} {σ : Data}

/-- **The code of an operation on two registers computes it.** The result may be computed
in the register of an operand. -/
theorem opCode_leaves {op : Op} (hop : NaiveCodeGen.isBinary op = true) {d a b : XReg} (hd : d ≠ 0) :
    Leaves sym (opCode op d a b) σ d (op.eval (σ.get a) (σ.get b)) [d] := by
  have hmem : d ∈ [d] := List.mem_singleton_self d
  cases op with
  | Add | Sub | Mul | Div | Mod | Lt | Gt => exact .single rfl hd hmem
  | Le =>
    refine .cons (flag ((σ.get b).slt (σ.get a))) rfl hd hmem fun σ₁ _ hv _ => ?_
    refine .single ?_ hd hmem
    rw [exec_alui rfl, hv, eval_not]
    rfl
  | Ge =>
    refine .cons (flag ((σ.get a).slt (σ.get b))) rfl hd hmem fun σ₁ _ hv _ => ?_
    refine .single ?_ hd hmem
    rw [exec_alui rfl, hv, eval_not]
    rfl
  | Eq =>
    refine .cons (σ.get a - σ.get b) rfl hd hmem fun σ₁ _ hv _ => ?_
    refine .single ?_ hd hmem
    rw [exec_alui rfl, hv, eval_seqz, sub_beq_zero]
    rfl
  | Ne =>
    refine .cons (σ.get a - σ.get b) rfl hd hmem fun σ₁ _ hv _ => ?_
    refine .single ?_ hd hmem
    show Outcome.ok (σ₁.set d (AluOp.sltu.eval 0#32 (σ₁.get d))) = _
    rw [hv, eval_snez, bne, sub_beq_zero]
    rfl
  | _ => cases hop

/-! ## Immediates -/

theorem smallImm_eq_some {v : Val} {i : Int} (h : smallImm v = some i) :
    ∃ w, v = .imm w ∧ isImm12 i = true ∧ BitVec.ofInt 32 i = w := by
  cases v with
  | reg => cases h
  | imm w =>
    by_cases hfit : fits12 w.toInt = true
    · obtain rfl := Option.some.inj ((if_pos hfit).symm.trans h)
      exact ⟨w, rfl, hfit, BitVec.ofInt_toInt⟩
    · cases (if_neg hfit).symm.trans h

theorem smallNegImm_eq_some {v : Val} {i : Int} (h : smallNegImm v = some i) :
    ∃ w, v = .imm w ∧ isImm12 i = true ∧ BitVec.ofInt 32 i = -w := by
  cases v with
  | reg => cases h
  | imm w =>
    by_cases hfit : fits12 (-w.toInt) = true
    · obtain rfl := Option.some.inj ((if_pos hfit).symm.trans h)
      exact ⟨w, rfl, hfit, by rw [BitVec.ofInt_neg, BitVec.ofInt_toInt]⟩
    · cases (if_neg hfit).symm.trans h

end Code

section Operands

variable {sym : String → BitVec 32} {fr : Frame} {A : Allocation} {σ : Data}
  {override : Option XReg}

/-- The register a result is computed in: an allocated one, `a0`, or the first scratch register. -/
theorem dstReg_mem (hover : ∀ x, override = some x → x = XReg.a0) {dst : Nat}
    (hdst : override = none → A.Locates dst) :
    dstReg A override dst scratch0 ∈ scratch0 :: XReg.a0 :: allocatable := by
  unfold dstReg
  cases override with
  | some x =>
    obtain rfl := hover x rfl
    show XReg.a0 ∈ scratch0 :: XReg.a0 :: allocatable
    decide
  | none =>
    rcases hdst rfl with ⟨x, hx, hreg⟩ | ⟨hreg, -⟩
    · rw [Option.none_or, hreg]
      exact List.mem_cons_of_mem _ (List.mem_cons_of_mem _ hx)
    · rw [Option.none_or, hreg]
      exact List.mem_cons_self

theorem dstReg_ne_zero (hover : ∀ x, override = some x → x = XReg.a0) {dst : Nat}
    (hdst : override = none → A.Locates dst) : dstReg A override dst scratch0 ≠ 0 := by
  have hmem := dstReg_mem hover hdst
  have hzero : (0 : XReg) ∉ scratch0 :: XReg.a0 :: allocatable := by decide
  exact fun h => hzero (h ▸ hmem)

/-- **An operation on one operand**, which is not read from `t6`. -/
theorem emitUnary_leaves {v : Val} {code : XReg → XReg → List Instr} {w : Word} {rd : XReg}
    (h : SlotsAligned fr σ) (hv : ValLocated A v)
    (hcode : ∀ (σ₁ : Data) (ra : XReg), ra ≠ scratch1 → σ₁.get ra = v.eval (locs fr A σ) →
      Leaves sym (code rd ra) σ₁ rd w [rd, scratch1]) :
    Leaves sym ((toReg fr A v scratch0).1 ++ code rd (toReg fr A v scratch0).2) σ rd w
      (rd :: temps) := by
  have hra : (toReg fr A v scratch0).2 ≠ scratch1 :=
    toReg_ne hv (by decide) (by decide) (by decide)
  refine ((toReg_leaves h (by decide)).mono (by simp [temps])).append fun σ₁ _ hval _ => ?_
  exact (hcode σ₁ _ hra hval).mono (by simp [temps])

/-- **An operation on two registers.** Loading the second operand leaves the first one alone. -/
theorem emitGeneral_leaves {op : Op} (hop : NaiveCodeGen.isBinary op = true) {a b : Val}
    {rd : XReg} (h : SlotsAligned fr σ) (ha : ValLocated A a) (hb : ValLocated A b)
    (hrd : rd ≠ 0) :
    Leaves sym ((toReg fr A a scratch0).1 ++ (toReg fr A b scratch1).1 ++
        opCode op rd (toReg fr A a scratch0).2 (toReg fr A b scratch1).2) σ rd
      (op.eval (a.eval (locs fr A σ)) (b.eval (locs fr A σ))) (rd :: temps) := by
  have hra6 : (toReg fr A a scratch0).2 ≠ scratch1 :=
    toReg_ne ha (by decide) (by decide) (by decide)
  have hra7 : (toReg fr A a scratch0).2 ≠ XReg.a7 :=
    toReg_ne ha (by decide) (by decide) (by decide)
  rw [List.append_assoc]
  refine Does.append (toReg_leaves h (by decide)) fun σ₁ ⟨hmem₁, hv₁, hk₁⟩ => ?_
  refine Does.append (toReg_leaves (h.of_keeps hk₁ (by decide)) (by decide))
    fun σ₂ ⟨hmem₂, hv₂, hk₂⟩ => ?_
  have ha₂ : σ₂.get (toReg fr A a scratch0).2 = a.eval (locs fr A σ) :=
    (hk₂ _ (by simp [hra6, hra7])).trans hv₁
  rw [eval_of_keeps hb hmem₁ (hk₁.mono (by decide))] at hv₂
  refine Does.mono (opCode_leaves hop hrd) fun σ₃ ⟨hmem₃, hv₃, hk₃⟩ => ⟨?_, ?_, ?_⟩
  · rw [hmem₃, hmem₂, hmem₁]
  · rw [hv₃, ha₂, hv₂]
  · exact (hk₁.mono (by simp [temps])).trans
      ((hk₂.mono (by simp [temps])).trans (hk₃.mono (by simp)))

/-- **Storing a result where it belongs.** -/
theorem writeBack_assigns {m : IRModule} {inst : Inst} {code : List Instr} {w : Word}
    (h : SlotsAligned fr σ) (hop : inst.op ≠ .StoreGlobal)
    (hover : ∀ x, override = some x → x = XReg.a0)
    (hcode : Leaves sym code σ (dstReg A override (inst.dst.getD 0) scratch0) w
      (dstReg A override (inst.dst.getD 0) scratch0 :: temps)) :
    Does sym (code ++ writeBack fr A override (inst.dst.getD 0)
        (dstReg A override (inst.dst.getD 0) scratch0)) σ
      (Assigns (target m sym fr A override inst σ) w σ) := by
  refine Does.append hcode fun σ₁ ⟨hmem, hw, hk⟩ => ?_
  unfold writeBack target
  unfold dstReg at hw hk ⊢
  rw [if_neg hop]
  cases hloc : override.or (A.reg (inst.dst.getD 0)) with
  | some x =>
    have hsome : (override.isNone && (A.reg (inst.dst.getD 0)).isNone) = false := by
      cases override <;> simp_all
    rw [hloc] at hw hk
    rw [hsome, if_neg Bool.false_ne_true]
    refine .nil ⟨hw, fun y hy hne => hk y ?_, fun a _ => by rw [hmem]⟩
    simpa [hy] using fun hyx => hne (congrArg Sum.inl hyx.symm)
  | none =>
    obtain ⟨rfl, hreg⟩ := Option.or_eq_none_iff.mp hloc
    rw [hloc] at hw hk
    have hk : Keeps temps σ σ₁ := hk.mono (by decide)
    have hsp₁ : σ₁.get XReg.sp = σ.get XReg.sp := hk _ (by decide)
    rw [hreg]
    show Does sym (storeSpill fr A scratch0 _) σ₁ _
    refine Does.mono (storeOffVia_does (by decide) (by decide) (.inl (by decide)) hsp₁
      (h.slot (A := A) (inst.dst.getD 0))) fun σ₂ ⟨hmem₂, hk₂⟩ => ⟨?_, ?_, ?_⟩
    · show σ₂.mem _ = w
      rw [hmem₂, ← hw]
      exact Data.store_mem_self ..
    · exact fun y hy _ => (hk.trans (hk₂.mono (by decide))) y hy
    · intro a ha
      rw [hmem₂]
      exact (Data.store_mem_of_ne _ (fun hax => ha (congrArg Sum.inr hax.symm)) _).trans
        (congrFun hmem a)

end Operands

/-! ## Instructions -/

/-- **The instructions whose selection is meant here**: not a call, nor a division by a
constant that is optimized. Their operands are located, and so is the destination, unless
the result goes to `a0`. -/
structure Selectable (opt : Bool) (A : Allocation) (override : Option XReg) (inst : Inst) :
    Prop where
  notCall : inst.op ≠ .Call
  notConst : opt = true → inst.op = .Div ∨ inst.op = .Mod → inst.b.isImm = false
  operands : ∀ v ∈ inst.operands, ValLocated A v
  dst : inst.op ≠ .StoreGlobal → override = none → A.Locates (inst.dst.getD 0)
  override : ∀ x, override = some x → x = XReg.a0

section Insts

variable {sym : String → BitVec 32} {m : IRModule} {fr : Frame} {A : Allocation} {σ : Data}
  {opt : Bool} {override : Option XReg} {inst : Inst}

/-- An operation on one operand, with its result stored. -/
theorem emitUnary_assigns {v : Val} {code : XReg → XReg → List Instr} {w : Word}
    (h : SlotsAligned fr σ) (hop : inst.op ≠ .StoreGlobal)
    (hsel : Selectable opt A override inst) (hv : ValLocated A v)
    (hcode : ∀ (σ₁ : Data) (rd ra : XReg), rd ≠ 0 → ra ≠ scratch1 →
      σ₁.get ra = v.eval (locs fr A σ) → Leaves sym (code rd ra) σ₁ rd w [rd, scratch1]) :
    Does sym (emitUnary fr A override (inst.dst.getD 0) v code) σ
      (Assigns (target m sym fr A override inst σ) w σ) :=
  writeBack_assigns h hop hsel.override (emitUnary_leaves h hv fun σ₁ ra =>
    hcode σ₁ _ ra (dstReg_ne_zero hsel.override (hsel.dst hop)))

/-- An operation on two registers, with its result stored. -/
theorem emitGeneral_assigns (h : SlotsAligned fr σ)
    (hop : NaiveCodeGen.isBinary inst.op = true) (hsel : Selectable opt A override inst)
    (ha : ValLocated A inst.a) (hb : ValLocated A inst.b) :
    Does sym (emitGeneral fr A override inst) σ (Assigns (target m sym fr A override inst σ)
      (inst.op.eval (inst.a.eval (locs fr A σ)) (inst.b.eval (locs fr A σ))) σ) := by
  have hstore : inst.op ≠ .StoreGlobal := by
    intro h
    rw [h] at hop
    cases hop
  exact writeBack_assigns h hstore hsel.override
    (emitGeneral_leaves hop h ha hb (dstReg_ne_zero hsel.override (hsel.dst hstore)))

/-- One operation with an immediate that fits, with its result stored. -/
theorem emitUnary_alui {iop : ImmOp} {v : Val} {i : Int} {w : Word} (h : SlotsAligned fr σ)
    (hop : inst.op ≠ .StoreGlobal) (hsel : Selectable opt A override inst) (hv : ValLocated A v)
    (hi : isImm12 i = true) (hw : iop.eval (v.eval (locs fr A σ)) (BitVec.ofInt 32 i) = w) :
    Does sym (emitUnary fr A override (inst.dst.getD 0) v fun rd ra => [.alui iop rd ra i]) σ
      (Assigns (target m sym fr A override inst σ) w σ) := by
  refine emitUnary_assigns h hop hsel hv fun σ₁ rd ra hrd _ hra => .single ?_ hrd (by simp)
  rw [exec_alui hi, hra, hw]

/-- **A binary operation** leaves its value, whichever code is chosen for it. -/
theorem emitBinary_assigns (h : SlotsAligned fr σ) (hop : NaiveCodeGen.isBinary inst.op = true)
    (hsel : Selectable opt A override inst) (ha : ValLocated A inst.a)
    (hb : ValLocated A inst.b) :
    Does sym (emitBinary opt fr A override inst) σ (Assigns (target m sym fr A override inst σ)
      (inst.op.eval (inst.a.eval (locs fr A σ)) (inst.b.eval (locs fr A σ))) σ) := by
  have hgeneral : Does sym (emitGeneral fr A override inst) σ
      (Assigns (target m sym fr A override inst σ)
        (inst.op.eval (inst.a.eval (locs fr A σ)) (inst.b.eval (locs fr A σ))) σ) :=
    emitGeneral_assigns h hop hsel ha hb
  have hstore : inst.op ≠ .StoreGlobal := by
    intro h
    rw [h] at hop
    cases hop
  unfold emitBinary
  cases hinst : inst.op with
  | Add =>
    rw [hinst] at hgeneral
    dsimp only
    split
    · rename_i i _ hi
      obtain ⟨w, hw, hfit, hval⟩ := smallImm_eq_some hi
      refine emitUnary_alui h hstore hsel ha hfit ?_
      rw [hw, hval]
      rfl
    · rename_i i _ hi
      obtain ⟨w, hw, hfit, hval⟩ := smallImm_eq_some hi
      refine emitUnary_alui h hstore hsel hb hfit ?_
      rw [hw, hval]
      exact BitVec.add_comm _ _
    · exact hgeneral
  | Sub =>
    rw [hinst] at hgeneral
    dsimp only
    split
    · rename_i i hi
      obtain ⟨w, hw, hfit, hval⟩ := smallNegImm_eq_some hi
      refine emitUnary_alui h hstore hsel ha hfit ?_
      rw [hw, hval]
      exact (BitVec.sub_eq_add_neg _ _).symm
    · exact hgeneral
  | Lt =>
    rw [hinst] at hgeneral
    dsimp only
    split
    · rename_i i hi
      obtain ⟨w, hw, hfit, hval⟩ := smallImm_eq_some hi
      refine emitUnary_alui h hstore hsel ha hfit ?_
      rw [hw, hval]
      rfl
    · exact hgeneral
  | Eq =>
    rw [hinst] at hgeneral
    dsimp only
    split
    · rename_i hzero
      refine emitUnary_alui h hstore hsel ha rfl ?_
      rw [hzero, eval_seqz]
      rfl
    · exact hgeneral
  | Ne =>
    rw [hinst] at hgeneral
    dsimp only
    split
    · rename_i hzero
      refine emitUnary_assigns h hstore hsel ha fun σ₁ rd ra hrd _ hra => .single ?_ hrd (by simp)
      show Outcome.ok (σ₁.set rd (AluOp.sltu.eval 0#32 (σ₁.get ra))) = _
      rw [hra, hzero, eval_snez]
      rfl
    · exact hgeneral
  | Mul =>
    rw [hinst] at hgeneral
    dsimp only
    split
    · rename_i c hc
      refine emitUnary_assigns h hstore hsel hb fun σ₁ rd ra hrd hne hra =>
        (emitMulConst_leaves hrd hne c).of_eq ?_
      rw [hra, hc]
      exact BitVec.mul_comm _ _
    · rename_i c hc _
      refine emitUnary_assigns h hstore hsel ha fun σ₁ rd ra hrd hne hra =>
        (emitMulConst_leaves hrd hne c).of_eq ?_
      rw [hra, hc]
      rfl
    · exact hgeneral
  | Div | Mod =>
    rw [hinst] at hgeneral
    dsimp only
    split
    · rename_i c hc
      have := hsel.notConst rfl (by simp [hinst])
      rw [hc] at this
      cases this
    · exact hgeneral
  | Gt | Le | Ge =>
    rw [hinst] at hgeneral
    exact hgeneral
  | _ =>
    rw [hinst] at hop
    cases hop

/-- A placed operand. -/
theorem emitMv_leaves {v : Val} {rd : XReg} (h : SlotsAligned fr σ) (hrd : rd ≠ 0) :
    Leaves sym (materialize fr A v rd) σ rd (v.eval (locs fr A σ)) (rd :: temps) :=
  (materialize_leaves h hrd).mono (by simp [temps])

/-- Reading a global. -/
theorem loadGlobal_leaves {name : String} {rd : XReg} (hrd : rd ≠ 0) (hal : Aligned (sym name)) :
    Leaves sym [.luiHi rd name, .lwLo rd name rd] σ rd (σ.mem (sym name)) (rd :: temps) := by
  refine .cons (hi (sym name)) rfl hrd (by simp) fun σ₁ hmem hv _ => .single ?_ hrd (by simp)
  have haddr : σ₁.get rd + lo (sym name) = sym name := by rw [hv, hi_add_lo]
  simp only [Instr.exec, haddr]
  rw [if_pos hal, hmem]

/-- Writing a global. -/
theorem storeGlobal_assigns {name : String} {v : Val} (h : SlotsAligned fr σ)
    (hv : ValLocated A v) (hal : Aligned (sym name)) :
    Does sym ((toReg fr A v scratch0).1 ++
        [.luiHi scratch1 name, .swLo (toReg fr A v scratch0).2 name scratch1]) σ
      (Assigns (.inr (sym name)) (v.eval (locs fr A σ)) σ) := by
  have hne : (toReg fr A v scratch0).2 ≠ scratch1 :=
    toReg_ne hv (by decide) (by decide) (by decide)
  refine Does.append (toReg_leaves h (by decide)) fun σ₁ ⟨hmem, hval, hk⟩ => ?_
  set a := sym name with ha
  refine .cons (σ₁.set scratch1 (hi a)) rfl (.single
    ((σ₁.set scratch1 (hi a)).store a (v.eval (locs fr A σ))) ?_ ⟨?_, ?_, ?_⟩)
  · have haddr : (σ₁.set scratch1 (hi a)).get scratch1 + lo a = a := by
      rw [σ₁.get_set_self (by decide), hi_add_lo]
    simp only [Instr.exec, ← ha, haddr]
    rw [if_pos hal, σ₁.get_set_of_ne hne, hval]
  · exact Data.store_mem_self ..
  · intro x hx _
    exact ((hk.mono (by decide)).trans (keeps_set (by decide) _)) x hx
  · intro b hb
    exact (Data.store_mem_of_ne _ (fun hba => hb (congrArg Sum.inr hba.symm)) _).trans
      (congrFun hmem b)

end Insts

/-- **Instruction selection is correct.** From any state whose stack pointer is aligned, the
code of an instruction leaves the value of the operation on its operands in the place of the
result, and changes nothing else but the registers for temporary values. -/
theorem emitInst_correct {sym : String → BitVec 32} {m : IRModule} {A : Allocation} {σ : Data}
    {opt : Bool} {override : Option XReg} {inst : Inst} (F : IRFunc)
    (hsel : Selectable opt A override inst) (hsp : Aligned (σ.get XReg.sp))
    (hglobal : inst.op = .LoadGlobal ∨ inst.op = .StoreGlobal →
      Aligned (sym (m.globalName inst.gid))) :
    Does sym (emitInst m opt (frameOf A F) A override inst) σ
      (Assigns (target m sym (frameOf A F) A override inst σ)
        (inst.value (locs (frameOf A F) A σ) (globalsIn m sym σ)) σ) := by
  have h : SlotsAligned (frameOf A F) σ := ⟨Nat.dvd_mul_left 4 _, hsp⟩
  have hoperands := hsel.operands
  have hrd : inst.op ≠ .StoreGlobal → dstReg A override (inst.dst.getD 0) scratch0 ≠ 0 :=
    fun hop => dstReg_ne_zero hsel.override (hsel.dst hop)
  unfold emitInst Inst.value
  unfold Inst.operands at hoperands
  cases hop : inst.op with
  | Call => exact absurd hop hsel.notCall
  | Mv =>
    have hstore : inst.op ≠ .StoreGlobal := by simp [hop]
    exact writeBack_assigns h hstore hsel.override (emitMv_leaves h (hrd hstore))
  | LoadGlobal =>
    have hstore : inst.op ≠ .StoreGlobal := by simp [hop]
    exact writeBack_assigns h hstore hsel.override
      (loadGlobal_leaves (hrd hstore) (hglobal (.inl hop)))
  | StoreGlobal =>
    rw [hop] at hoperands
    unfold target
    rw [if_pos hop]
    exact storeGlobal_assigns h (hoperands _ List.mem_cons_self) (hglobal (.inr hop))
  | Neg =>
    have hstore : inst.op ≠ .StoreGlobal := by simp [hop]
    rw [hop] at hoperands
    refine emitUnary_assigns h hstore hsel (hoperands _ List.mem_cons_self)
      fun σ₁ rd ra hrd _ hra => .single ?_ hrd (by simp)
    show Outcome.ok (σ₁.set rd (AluOp.sub.eval 0#32 (σ₁.get ra))) = _
    rw [eval_neg, hra]
  | Not =>
    have hstore : inst.op ≠ .StoreGlobal := by simp [hop]
    rw [hop] at hoperands
    refine emitUnary_alui h hstore hsel (hoperands _ List.mem_cons_self) rfl ?_
    rw [eval_seqz]
    rfl
  | _ =>
    rw [hop] at hoperands
    have hbinary : Does sym (emitBinary opt (frameOf A F) A override inst) σ
        (Assigns (target m sym (frameOf A F) A override inst σ)
          (inst.op.eval (inst.a.eval (locs (frameOf A F) A σ)) (inst.b.eval (locs (frameOf A F) A σ))) σ) :=
      emitBinary_assigns h (by rw [hop]; rfl) hsel (hoperands _ List.mem_cons_self)
        (hoperands _ (by simp))
    rw [hop] at hbinary
    exact hbinary

/-- Seven is subtracted from a vreg in a spill slot that is too far away for one load. -/
theorem emitInst_correct_far :
    Does (fun _ => 0)
      (emitInst {} true (frameOf { spillSlot := fun _ => some 600 } {})
        { spillSlot := fun _ => some 600 } none { op := .Sub, dst := some 0, a := .reg 0, b := .imm 7 })
      ⟨fun _ => 0, fun _ => 22⟩ (Assigns (.inr 2400) 15 ⟨fun _ => 0, fun _ => 22⟩) :=
  emitInst_correct (σ := ⟨fun _ => 0, fun _ => 22⟩) (m := {})
    (A := { spillSlot := fun _ => some 600 })
    {}
    { notCall := by decide
      notConst := fun _ h => by cases h <;> contradiction
      operands := fun _ _ _ _ => .inr ⟨rfl, 600, rfl⟩
      dst := fun _ _ => .inr ⟨rfl, 600, rfl⟩
      override := fun _ h => by cases h }
    (by decide) (fun h => by cases h <;> contradiction)

end OptCodeGen

end ToyC
