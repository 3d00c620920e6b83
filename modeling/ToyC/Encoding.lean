import ToyC.Lib.Assembler
import ToyC.IRGenClosed
import ToyC.NaiveCorrect
import ToyC.OptJumps
import ToyC.HostSafety
import ToyC.OptDivision

/-!
# What is emitted has an encoding

Both code generators emit only what the assembler takes: their registers exist, an offset that is
too large for an instruction is loaded into a register first, and a shift is by less than the width
of a word, also where the generator computes it for a division by a constant.

An instruction refers to the global or to the function that its code refers to, and a jump to a
block of its own function. So where these are there (`IRModule.Linkable`), the assembly is assembled
if and only if no two symbols of the module are the same (`generateAsmNaive_assembles`,
`generateAsmOpt_assembles`).
-/

namespace ToyC

open Rv32

/-- The registers that are named are registers. -/
@[simp] theorem XReg.named_lt :
    XReg.zero < 32 ∧ XReg.ra < 32 ∧ XReg.sp < 32 ∧ XReg.t0 < 32 ∧ XReg.t1 < 32 ∧ XReg.a0 < 32 ∧
      XReg.a6 < 32 ∧ XReg.a7 < 32 ∧ XReg.t5 < 32 ∧ XReg.t6 < 32 := by
  decide

@[simp] theorem isImm12_eq (x : Int) : isImm12 x = fits12 x := rfl

@[simp] theorem fits12_small : fits12 0 = true ∧ fits12 1 = true := by decide

/-! ## Frames -/

section Frames

variable {syms : List String} {scratch reg : XReg}

theorem takes_loadOffVia (hs : scratch < 32) (hr : reg < 32) (off : Nat) :
    Takes syms (loadOffVia scratch reg off) := by
  unfold loadOffVia
  split
  · rename_i hfits
    simp [hr, hfits]
  · simp [hs, hr]

theorem takes_storeOffVia (hs : scratch < 32) (hr : reg < 32) (off : Nat) :
    Takes syms (storeOffVia scratch reg off) := by
  unfold storeOffVia
  split
  · rename_i hfits
    simp [hr, hfits]
  · simp [hs, hr]

@[simp] theorem takes_openFrame (n : Nat) : Takes syms (openFrame n) := by
  unfold openFrame
  split
  · rename_i hfits
    simp [hfits]
  · simp

@[simp] theorem takes_closeFrame (n : Nat) : Takes syms (closeFrame n) := by
  unfold closeFrame
  split
  · rename_i hfits
    simp [hfits]
  · simp

end Frames

/-! ## The naive code generator -/

/-- **An instruction refers to what there is**: to these symbols. -/
structure Inst.Known (m : IRModule) (syms : List String) (inst : Inst) : Prop where
  globals : inst.op = .LoadGlobal ∨ inst.op = .StoreGlobal → m.globalName inst.gid ∈ syms
  callee : inst.op = .Call → inst.callee ∈ syms

namespace NaiveCodeGen

section Naive

variable {m : IRModule} {fr : Frame} {syms : List String}

theorem takes_loadSlot {reg : XReg} (hr : reg < 32) (v : Nat) : Takes syms (loadSlot fr reg v) :=
  takes_loadOffVia (by simp) hr _

theorem takes_storeSlot {reg : XReg} (hr : reg < 32) (v : Nat) :
    Takes syms (storeSlot fr reg v) :=
  takes_storeOffVia (by simp) hr _

theorem takes_loadVal {reg : XReg} (hr : reg < 32) (v : Val) : Takes syms (loadVal fr v reg) := by
  cases v with
  | imm i => simp [loadVal, hr]
  | reg v => exact takes_loadSlot hr v

theorem takes_opCode (op : Op) : Takes syms (opCode op) := by
  cases op <;> simp [opCode]

theorem takes_stackArgs (k : Nat) (vs : List Val) : Takes syms (stackArgs fr k vs) := by
  induction vs generalizing k with
  | nil => exact takes_nil
  | cons v vs ih =>
    exact takes_append.mpr ⟨ih _, takes_append.mpr ⟨takes_loadVal (by simp) v,
      takes_storeOffVia (by simp) (by simp) _⟩⟩

theorem takes_regArgs (x : Nat) (vs : List Val) (h : x + vs.length ≤ 32) :
    Takes syms (regArgs fr x vs) := by
  induction vs generalizing x with
  | nil => exact takes_nil
  | cons v vs ih =>
    rw [List.length_cons] at h
    have hx : x < 32 := by omega
    exact takes_append.mpr ⟨takes_loadVal hx v, ih _ (by omega)⟩

/-- **The code of an instruction.** -/
theorem takes_emitInst {inst : Inst} (h : inst.Known m syms) :
    Takes syms (emitInst m fr inst) := by
  have hload : ∀ v, Takes syms (loadVal fr v XReg.t0) := fun v => takes_loadVal (by simp) v
  have hstore : ∀ d, Takes syms (storeSlot fr XReg.t0 d) := fun d => takes_storeSlot (by simp) d
  unfold emitInst
  dsimp only
  split
  · simp [hload, hstore]
  · rename_i hop
    simp [hstore, h.globals (.inl hop)]
  · rename_i hop
    simp [hload, h.globals (.inr hop)]
  · simp [hload, hstore]
  · simp [hload, hstore]
  · rename_i hop
    have hargs : Takes syms (regArgs fr XReg.a0 (inst.args.take 8)) := by
      refine takes_regArgs _ _ ?_
      have := List.length_take_le 8 inst.args
      show (10 : Nat) + _ ≤ 32
      omega
    simp only [emitCall, takes_append, takes_stackArgs, hargs, takes_cons, takes_nil, and_true,
      true_and]
    refine ⟨by simp [h.callee hop], ?_⟩
    split
    · exact takes_storeSlot (by simp) _
    · exact takes_nil
  · simp [emitBinary, hload, hstore, takes_loadVal, takes_opCode]

theorem takes_emitEpilogue : Takes syms (emitEpilogue fr) := by
  have hra : Takes syms (loadOff XReg.ra fr.raOff) := takes_loadOffVia (by simp) (by simp) _
  simp [emitEpilogue, restore, hra]

/-- **The code of a terminator.** -/
theorem takes_emitTerm {f : IRFunc} {bb : BasicBlock}
    (h : ∀ s ∈ succsOf bb, f.label s ∈ syms) : Takes syms (emitTerm fr f bb) := by
  unfold emitTerm
  cases hterm : bb.term with
  | Jmp => simp [h bb.succ0 (by simp [succsOf, hterm])]
  | Br =>
    have hcond : Takes syms (loadVal fr bb.cond XReg.t0) := takes_loadVal (by simp) _
    simp [hcond, h bb.succ0 (by simp [succsOf, hterm]), h bb.succ1 (by simp [succsOf, hterm])]
  | Ret =>
    have hval : Takes syms (if bb.retHasVal then loadVal fr bb.retVal XReg.a0 else []) := by
      split
      · exact takes_loadVal (by simp) _
      · exact takes_nil
    exact takes_append.mpr ⟨hval, takes_emitEpilogue⟩
  | None => exact takes_emitEpilogue

theorem takes_moveParams (i : Nat) (vs : List Nat) : Takes syms (moveParams fr i vs) := by
  induction vs generalizing i with
  | nil => exact takes_nil
  | cons v vs ih =>
    refine takes_append.mpr ⟨?_, ih _⟩
    split
    · exact takes_storeSlot (show 10 + i < 32 by omega) v
    · exact takes_append.mpr ⟨takes_loadOffVia (by simp) (by simp) _, takes_storeSlot (by simp) v⟩

/-- **The code of a function.** -/
theorem takes_emitFunc {F : IRFunc} (hinsts : ∀ inst ∈ F.insts, inst.Known m syms)
    (hsuccs : ∀ bb ∈ F.blocks, ∀ s ∈ succsOf bb, F.label s ∈ syms) :
    Takes syms (code (emitFunc m F)) := by
  have hra : Takes syms (storeOff XReg.ra (frameOf F).raOff) :=
    takes_storeOffVia (by simp) (by simp) _
  have hprologue : Takes syms (prologue (frameOf F) F) := by
    simp [prologue, hra, takes_moveParams]
  have hblocks : Takes syms (code (F.blocks.flatMap (emitBlock m (frameOf F) F))) := by
    rw [code_flatMap]
    refine takes_flatMap fun bb hbb => ?_
    have hcode : code (emitBlock m (frameOf F) F bb) =
        bb.insts.flatMap (emitInst m (frameOf F)) ++ emitTerm (frameOf F) F bb := by
      simp only [emitBlock, code_cons, code_instr, Item.instr?, Option.toList_none, List.nil_append]
    rw [hcode]
    refine takes_append.mpr ⟨takes_flatMap fun inst hi => takes_emitInst ?_,
      takes_emitTerm (hsuccs bb hbb)⟩
    exact hinsts inst (List.mem_flatMap.mpr ⟨bb, hbb, hi⟩)
  simp [emitFunc, hprologue, hblocks]

end Naive

end NaiveCodeGen

/-! ## The optimizing code generator -/

/-- The shift of an unsigned magic number is by less than the width. -/
theorem NeedsMagic.unsigned_shift_lt {c : Word} (hc : NeedsMagic c) : (unsignedMagic c).2 < 32 := by
  unfold unsignedMagic
  cases h : (List.range 33).findSome? _ with
  | none => decide
  | some r =>
    obtain ⟨k, -, hk⟩ := List.exists_of_findSome?_eq_some h
    obtain ⟨hlt, heq⟩ := Option.ite_none_right_eq_some.mp hk
    obtain rfl := Option.some.inj heq
    show k < 32
    by_contra hge
    have htwo := hc.two_le
    have hd := c.isLt
    have hpow : 2 ^ 64 ≤ 2 ^ (32 + k) := Nat.pow_le_pow_right (by decide) (by omega)
    have := (Nat.div_lt_iff_lt_mul (by omega)).mp hlt
    omega

/-- **The registers of an allocation** are registers. -/
structure Allocation.Real (A : Allocation) : Prop where
  reg : ∀ v x, A.reg v = some x → x < 32
  callee : ∀ x ∈ A.usedCallee, x < 32

namespace OptCodeGen

section Opt

variable {m : IRModule} {opt : Bool} {fr : Frame} {A : Allocation} {override : Option XReg}
  {syms : List String}

theorem takes_loadSpill {reg : XReg} (hr : reg < 32) (v : Nat) :
    Takes syms (loadSpill fr A reg v) :=
  takes_loadOffVia (by simp) hr _

theorem takes_storeSpill {reg : XReg} (hr : reg < 32) (v : Nat) :
    Takes syms (storeSpill fr A reg v) :=
  takes_storeOffVia (by simp) hr _

/-- **Getting an operand** into some register. -/
theorem takes_toReg (hA : A.Real) (v : Val) {scratch : XReg} (hs : scratch < 32) :
    Takes syms (toReg fr A v scratch).1 ∧ (toReg fr A v scratch).2 < 32 := by
  unfold toReg
  split
  · split <;> simp [hs]
  · split
    · rename_i p hp
      exact ⟨takes_nil, hA.reg _ p hp⟩
    · exact ⟨takes_loadSpill hs _, hs⟩

/-- **Placing an operand** into a register. -/
theorem takes_materialize (hA : A.Real) (v : Val) {x : XReg} (hx : x < 32) :
    Takes syms (materialize fr A v x) := by
  unfold materialize
  split
  · simp [hx]
  · split
    · rename_i p hp
      split <;> simp [hx, hA.reg _ p hp]
    · exact takes_loadSpill hx _

theorem takes_writeBack {x : XReg} (hx : x < 32) (v : Nat) :
    Takes syms (writeBack fr A override v x) := by
  unfold writeBack
  split
  · exact takes_storeSpill hx v
  · exact takes_nil

theorem dstReg_lt (hA : A.Real) (ho : ∀ x ∈ override, x < 32) {scratch : XReg} (hs : scratch < 32)
    (v : Nat) : dstReg A override v scratch < 32 := by
  unfold dstReg
  cases hover : override with
  | some x => exact ho x hover
  | none =>
    cases hreg : A.reg v with
    | some x => exact hA.reg v x hreg
    | none => exact hs

theorem takes_negIf {rd : XReg} (hd : rd < 32) (c : Word) : Takes syms (negIf c rd) := by
  unfold negIf
  split <;> simp [hd]

theorem takes_emitMulConst {rd ra : XReg} (hd : rd < 32) (ha : ra < 32) (c : Word) :
    Takes syms (emitMulConst rd ra c) := by
  have habs := absConst_le c
  have hneg : Takes syms (negIf c rd) := takes_negIf hd c
  have hshift : ∀ {v k}, log2pos v = some k → v ≤ 2 ^ 31 + 1 → k < 32 := fun h hv =>
    pow_lt_32 (log2pos_eq_some.mp h).1 hv
  unfold emitMulConst
  dsimp only
  split
  · simp [hd]
  · split
    · split <;> simp [hd, ha]
    · split
      · simp [hd, ha]
      · split
        · rename_i k hk
          simp [hd, ha, hneg, hshift hk (by omega)]
        · split
          · rename_i k hk
            simp [hd, ha, hneg, hshift hk (by omega)]
          · split
            · rename_i k hk
              simp [hd, ha, hneg, hshift hk (by omega)]
            · simp [hd, ha]

theorem takes_emitPow2Bias {s r : XReg} (hs : s < 32) (hr : r < 32) {k : Nat} (hk : 1 ≤ k) :
    Takes syms (emitPow2Bias s r k) := by
  unfold emitPow2Bias
  split
  · simp [hs, hr]
  · simp [hs, hr]
    omega

theorem takes_magicReg (hA : A.Real) (v : Option Nat) (magic : Word) :
    Takes syms (magicReg fr A v magic).1 ∧ (magicReg fr A v magic).2 < 32 := by
  unfold magicReg
  split
  · exact takes_toReg hA _ (by simp)
  · simp

theorem takes_emitMagicQuotient (hA : A.Real) (v : Option Nat) (isUnsigned : Bool) {q ra : XReg}
    (hq : q < 32) (ha : ra < 32) {c : Word} (hc : NeedsMagic c) :
    Takes syms (emitMagicQuotient fr A v isUnsigned q ra c) := by
  have hmagic : ∀ magic, Takes syms (magicReg fr A v magic).1 ∧ (magicReg fr A v magic).2 < 32 :=
    fun magic => takes_magicReg hA v magic
  have hsigned := hc.shift_le
  have hunsigned := hc.unsigned_shift_lt
  unfold emitMagicQuotient
  dsimp only
  repeat' split
  all_goals simp [hq, ha, hmagic]
  all_goals omega

/-- **A quotient by a constant.** -/
theorem takes_emitDivConst (hA : A.Real) (v : Option Nat) (isUnsigned : Bool) {rd ra : XReg}
    (hd : rd < 32) (ha : ra < 32) (c : Word) :
    Takes syms (emitDivConst fr A v isUnsigned rd ra c) := by
  have hneg : Takes syms (negIf c rd) := takes_negIf hd c
  unfold emitDivConst
  dsimp only
  split
  · split <;> simp [hd, ha]
  · rename_i h1
    split
    · simp [hd, ha]
    · rename_i hneg1
      split
      · rename_i k hk
        obtain ⟨heq, hpos⟩ := log2pos_eq_some.mp hk
        have habs := absConst_le c
        have hlt : k < 32 := pow_lt_32 heq (by omega)
        have hbias : Takes syms (emitPow2Bias scratch1 ra k) := takes_emitPow2Bias (by simp) ha hpos
        simp [hd, ha, hneg, hbias, hlt]
      · rename_i hlog
        split
        · rename_i h0
          refine takes_emitMagicQuotient hA v isUnsigned hd ha (needsMagic_of h0 (fun h => ?_) hlog)
          exact (absConst_eq_one h).elim h1 hneg1
        · simp [hd, ha]

/-- **A remainder by a constant** other than zero. -/
theorem takes_emitModConst (hA : A.Real) (v : Option Nat) (isUnsigned : Bool) {rd ra : XReg}
    (hd : rd < 32) (ha : ra < 32) {c : Word} (h0 : c ≠ 0) :
    Takes syms (emitModConst fr A v isUnsigned rd ra c) := by
  have hmul : ∀ {q : XReg}, q < 32 → Takes syms (emitMulConst XReg.a7 q c) := fun hq =>
    takes_emitMulConst (by simp) hq c
  unfold emitModConst
  dsimp only
  split
  · simp [hd]
  · rename_i h1
    split
    · rename_i k hk
      obtain ⟨heq, hpos⟩ := log2pos_eq_some.mp hk
      have habs := absConst_le c
      have hlt : k < 32 := pow_lt_32 heq (by omega)
      have hbias : Takes syms (emitPow2Bias scratch1 ra k) := takes_emitPow2Bias (by simp) ha hpos
      simp [hd, ha, hbias, hlt]
    · rename_i hlog
      have hc := needsMagic_of h0 h1 hlog
      have hshift := hc.unsigned_shift_lt
      split
      · have hmagic : ∀ magic, Takes syms (magicReg fr A v magic).1 ∧
            (magicReg fr A v magic).2 < 32 := fun magic => takes_magicReg hA v magic
        split <;> simp [hd, ha, hmagic, hshift, hmul]
      · have hquot : Takes syms (emitMagicQuotient fr A v isUnsigned XReg.a6 ra c) :=
          takes_emitMagicQuotient hA v isUnsigned (by simp) ha hc
        simp [hd, ha, hquot, hmul]

theorem takes_opCode (op : Op) {d a b : XReg} (hd : d < 32) (ha : a < 32) (hb : b < 32) :
    Takes syms (opCode op d a b) := by
  cases op <;> simp [opCode, hd, ha, hb]

/-- An operation on one operand. -/
theorem takes_emitUnary (hA : A.Real) (ho : ∀ x ∈ override, x < 32) (dst : Nat) (v : Val)
    {body : XReg → XReg → List Instr}
    (hbody : ∀ rd ra, rd < 32 → ra < 32 → Takes syms (body rd ra)) :
    Takes syms (emitUnary fr A override dst v body) := by
  have hd := dstReg_lt hA ho (show scratch0 < 32 by simp) dst
  have hload : Takes syms (toReg fr A v scratch0).1 ∧ (toReg fr A v scratch0).2 < 32 :=
    takes_toReg hA v (by simp)
  simp [emitUnary, hload, hbody _ _ hd hload.2, takes_writeBack hd]

/-- An operation on two registers. -/
theorem takes_emitGeneral (hA : A.Real) (ho : ∀ x ∈ override, x < 32) (inst : Inst) :
    Takes syms (emitGeneral fr A override inst) := by
  have hd := dstReg_lt hA ho (show scratch0 < 32 by simp) (inst.dst.getD 0)
  have hload : ∀ (v : Val) {scratch : XReg}, scratch < 32 →
      Takes syms (toReg fr A v scratch).1 ∧ (toReg fr A v scratch).2 < 32 := fun v _ hs =>
    takes_toReg hA v hs
  have hcode : Takes syms (opCode inst.op (dstReg A override (inst.dst.getD 0) scratch0)
      (toReg fr A inst.a scratch0).2 (toReg fr A inst.b scratch1).2) :=
    takes_opCode _ hd (hload _ (by simp)).2 (hload _ (by simp)).2
  simp [emitGeneral, hload, hcode, takes_writeBack hd]

theorem smallImm_fits {v : Val} {i : Int} (h : smallImm v = some i) : fits12 i = true := by
  cases v with
  | reg => cases h
  | imm w =>
    obtain ⟨hfits, heq⟩ := Option.ite_none_right_eq_some.mp h
    exact Option.some.inj heq ▸ hfits

theorem smallNegImm_fits {v : Val} {i : Int} (h : smallNegImm v = some i) : fits12 i = true := by
  cases v with
  | reg => cases h
  | imm w =>
    obtain ⟨hfits, heq⟩ := Option.ite_none_right_eq_some.mp h
    exact Option.some.inj heq ▸ hfits

theorem takes_emitBinary (hA : A.Real) (ho : ∀ x ∈ override, x < 32) {inst : Inst}
    (hrem : opt = true → inst.remZero = false) :
    Takes syms (emitBinary opt fr A override inst) := by
  have hgeneral : Takes syms (emitGeneral fr A override inst) := takes_emitGeneral hA ho inst
  have hunary : ∀ (v : Val) {body : XReg → XReg → List Instr},
      (∀ rd ra, rd < 32 → ra < 32 → Takes syms (body rd ra)) →
      Takes syms (emitUnary fr A override (inst.dst.getD 0) v body) := fun v _ hbody =>
    takes_emitUnary hA ho _ v hbody
  have himm : ∀ {i : Int}, fits12 i = true → ∀ op rd ra, rd < 32 → ra < 32 →
      Takes syms [.alui op rd ra i] := fun hi op rd ra hd ha => by simp [hi, hd, ha]
  unfold emitBinary
  dsimp only
  split
  · split
    · rename_i i _ hi
      exact hunary _ (himm (smallImm_fits hi) _)
    · rename_i i _ hi
      exact hunary _ (himm (smallImm_fits hi) _)
    · exact hgeneral
  · split
    · rename_i i hi
      exact hunary _ (himm (smallNegImm_fits hi) _)
    · exact hgeneral
  · split
    · rename_i i hi
      exact hunary _ (himm (smallImm_fits hi) _)
    · exact hgeneral
  · split
    · exact hunary _ fun rd ra hd ha => by simp [hd, ha]
    · exact hgeneral
  · split
    · exact hunary _ fun rd ra hd ha => by simp [hd, ha]
    · exact hgeneral
  · split
    · exact hunary _ fun rd ra hd ha => takes_emitMulConst hd ha _
    · exact hunary _ fun rd ra hd ha => takes_emitMulConst hd ha _
    · exact hgeneral
  · split
    · exact hunary _ fun rd ra hd ha => takes_emitDivConst hA _ _ hd ha _
    · exact hgeneral
  · rename_i hop
    split
    · rename_i c hb
      refine hunary _ fun rd ra hd ha => takes_emitModConst hA _ _ hd ha fun h0 => ?_
      have hrem := hrem rfl
      simp [Inst.remZero, hop, hb, h0] at hrem
    · exact hgeneral
  · exact hgeneral

theorem takes_stackArgs (hA : A.Real) (k : Nat) (vs : List Val) :
    Takes syms (stackArgs fr A k vs) := by
  induction vs generalizing k with
  | nil => exact takes_nil
  | cons v vs ih =>
    exact takes_append.mpr ⟨ih _, takes_append.mpr ⟨takes_materialize hA v (by simp),
      takes_storeOffVia (by simp) (by simp) _⟩⟩

theorem takes_regArgs (hA : A.Real) (x : Nat) (vs : List Val) (h : x + vs.length ≤ 32) :
    Takes syms (regArgs fr A x vs) := by
  induction vs generalizing x with
  | nil => exact takes_nil
  | cons v vs ih =>
    rw [List.length_cons] at h
    have hx : x < 32 := by omega
    exact takes_append.mpr ⟨takes_materialize hA v hx, ih _ (by omega)⟩

theorem takes_callResult (hA : A.Real) (ho : ∀ x ∈ override, x < 32) (dst : Option Nat) :
    Takes syms (callResult fr A override dst) := by
  unfold callResult
  split
  · exact takes_nil
  · rename_i d
    split
    · rename_i x hx
      have hx : x < 32 := by
        cases hover : override with
        | some y =>
          rw [hover] at hx
          exact ho x (hover.trans hx)
        | none =>
          rw [hover] at hx
          exact hA.reg d x hx
      split <;> simp [hx]
    · exact takes_storeSpill (by simp) d

/-- **The code of an instruction.** -/
theorem takes_emitInst (hA : A.Real) (ho : ∀ x ∈ override, x < 32) {inst : Inst}
    (h : inst.Known m syms) (hrem : opt = true → inst.remZero = false) :
    Takes syms (emitInst m opt fr A override inst) := by
  have hd := dstReg_lt hA ho (show scratch0 < 32 by simp) (inst.dst.getD 0)
  unfold emitInst
  dsimp only
  split
  · exact takes_append.mpr ⟨takes_materialize hA _ hd, takes_writeBack hd _⟩
  · rename_i hop
    refine takes_append.mpr ⟨?_, takes_writeBack hd _⟩
    simp [hd, h.globals (.inl hop)]
  · rename_i hop
    obtain ⟨hload, ha⟩ : Takes syms (toReg fr A inst.a scratch0).1 ∧
        (toReg fr A inst.a scratch0).2 < 32 := takes_toReg hA _ (by simp)
    simp [hload, ha, h.globals (.inr hop)]
  · exact takes_emitUnary hA ho _ _ fun rd ra hd ha => by simp [hd, ha]
  · exact takes_emitUnary hA ho _ _ fun rd ra hd ha => by simp [hd, ha]
  · rename_i hop
    have hargs : Takes syms (regArgs fr A XReg.a0 (inst.args.take 8)) := by
      refine takes_regArgs hA _ _ ?_
      have := List.length_take_le 8 inst.args
      show (10 : Nat) + _ ≤ 32
      omega
    simp [emitCall, callArgs, takes_stackArgs hA, hargs, takes_callResult hA ho, h.callee hop]
  · exact takes_emitBinary hA ho hrem

theorem takes_restoreRegs (off : Nat) {xs : List XReg} (h : ∀ x ∈ xs, x < 32) :
    Takes syms (restoreRegs off xs) := by
  induction xs generalizing off with
  | nil => exact takes_nil
  | cons x xs ih =>
    rw [List.forall_mem_cons] at h
    exact takes_append.mpr ⟨takes_loadOffVia (by simp) h.1 off, ih _ h.2⟩

theorem takes_saveRegs (off : Nat) {xs : List XReg} (h : ∀ x ∈ xs, x < 32) :
    Takes syms (saveRegs off xs) := by
  induction xs generalizing off with
  | nil => exact takes_nil
  | cons x xs ih =>
    rw [List.forall_mem_cons] at h
    exact takes_append.mpr ⟨takes_storeOffVia (by simp) h.1 off, ih _ h.2⟩

theorem takes_emitEpilogue (hA : A.Real) : Takes syms (emitEpilogue fr A) := by
  have hregs : Takes syms (restoreRegs fr.calleeBase A.usedCallee) :=
    takes_restoreRegs _ hA.callee
  have hra : Takes syms (loadOff XReg.ra fr.raOff) := takes_loadOffVia (by simp) (by simp) _
  unfold emitEpilogue restore
  repeat' split
  all_goals simp [hregs, hra]

theorem takes_emitBranchCmp (hA : A.Real) (op : Op) (a b : Val) {l : String} (hl : l ∈ syms)
    (negate : Bool) : Takes syms (emitBranchCmp fr A op a b l negate) := by
  have hload : ∀ (v : Val) {scratch : XReg}, scratch < 32 →
      Takes syms (toReg fr A v scratch).1 ∧ (toReg fr A v scratch).2 < 32 := fun v _ hs =>
    takes_toReg hA v hs
  unfold emitBranchCmp
  dsimp only
  split <;> simp [hload, hl]

/-- **The code of a terminator.** -/
theorem takes_emitTerm (hA : A.Real) {f : IRFunc} {bb : BasicBlock} {next : Option Nat}
    {fused retFuse : Option Inst} (h : ∀ s ∈ succsOf bb, f.label s ∈ syms)
    (hret : ∀ inst ∈ retFuse, inst.Known m syms ∧ (opt = true → inst.remZero = false)) :
    Takes syms (emitTerm m opt fr A f bb next fused retFuse) := by
  unfold emitTerm
  cases hterm : bb.term with
  | Jmp =>
    dsimp only
    split
    · simp [h bb.succ0 (by simp [succsOf, hterm])]
    · exact takes_nil
  | Br =>
    have h₀ : f.label bb.succ0 ∈ syms := h _ (by simp [succsOf, hterm])
    have h₁ : f.label bb.succ1 ∈ syms := h _ (by simp [succsOf, hterm])
    have hcond : Takes syms (toReg fr A bb.cond scratch0).1 ∧
        (toReg fr A bb.cond scratch0).2 < 32 := takes_toReg hA _ (by simp)
    dsimp only
    split
    · split
      · exact takes_emitBranchCmp hA _ _ _ h₀ _
      · split
        · exact takes_emitBranchCmp hA _ _ _ h₁ _
        · exact takes_append.mpr ⟨takes_emitBranchCmp hA _ _ _ h₀ _, by simp [h₁]⟩
    · refine takes_append.mpr ⟨hcond.1, ?_⟩
      repeat' split
      all_goals simp [hcond.2, h₀, h₁]
  | Ret =>
    refine takes_append.mpr ⟨?_, takes_emitEpilogue hA⟩
    split
    · obtain ⟨hknown, hrem⟩ := hret _ rfl
      exact takes_emitInst hA (fun x hx => by simp [← Option.some.inj hx]) hknown hrem
    · split
      · exact takes_materialize hA _ (by simp)
      · exact takes_nil
  | None => exact takes_emitEpilogue hA

/-- **The code of a block.** -/
theorem takes_blockCode (hA : A.Real) {f : IRFunc} {bb : BasicBlock} {next : Option Nat}
    (hinsts : ∀ inst ∈ bb.insts, inst.Known m syms ∧ (opt = true → inst.remZero = false))
    (hsuccs : ∀ s ∈ succsOf bb, f.label s ∈ syms) :
    Takes syms (blockCode m opt fr A f bb next) := by
  refine takes_append.mpr ⟨takes_flatMap fun inst hi => ?_, takes_emitTerm hA hsuccs ?_⟩
  · obtain ⟨hknown, hrem⟩ := hinsts inst (mem_insts_of_plain hi)
    exact takes_emitInst hA (fun x hx => by cases hx) hknown hrem
  · exact fun inst hi => hinsts inst (mem_insts_of_fusedRet hi)

theorem takes_moveParams (hA : A.Real) (i : Nat) (vs : List Nat) :
    Takes syms (moveParams fr A i vs) := by
  induction vs generalizing i with
  | nil => exact takes_nil
  | cons v vs ih =>
    refine takes_append.mpr ⟨?_, ih _⟩
    split
    · have hreg : XReg.a0 + i < 32 := show 10 + i < 32 by omega
      split
      · rename_i p hp
        split <;> simp [hA.reg v p hp, hreg]
      · exact takes_storeSpill hreg v
    · dsimp only
      split
      · rename_i p hp
        exact takes_loadOffVia (by simp) (hA.reg v p hp) _
      · exact takes_append.mpr ⟨takes_loadOffVia (by simp) (by simp) _,
          takes_storeSpill (by simp) v⟩

theorem takes_prologue (hA : A.Real) (f : IRFunc) : Takes syms (prologue fr A f) := by
  have hra : Takes syms (storeOff XReg.ra fr.raOff) := takes_storeOffVia (by simp) (by simp) _
  unfold prologue
  refine takes_append.mpr ⟨takes_append.mpr ⟨?_, takes_saveRegs _ hA.callee⟩,
    takes_moveParams hA _ _⟩
  repeat' split
  all_goals simp [hra]

/-- **The code of a function.** -/
theorem takes_emitFunc (hA : A.Real) {F : IRFunc}
    (hinsts : ∀ b ∈ order F, ∀ inst ∈ (F.blockAt b).insts,
      inst.Known m syms ∧ (opt = true → inst.remZero = false))
    (hsuccs : ∀ b ∈ order F, ∀ s ∈ succsOf (F.blockAt b), F.label s ∈ syms) :
    Takes syms (code (emitFunc m opt A F)) := by
  have hblocks : ∀ bs : List Nat, (∀ b ∈ bs, b ∈ order F) →
      Takes syms (code (emitBlocks m opt (frameOf A F) A F bs)) := by
    intro bs
    induction bs with
    | nil => exact fun _ => takes_nil
    | cons b bs ih =>
      intro hbs
      rw [List.forall_mem_cons] at hbs
      have hblock : Takes syms (blockCode m opt (frameOf A F) A F (F.blockAt b) bs.head?) :=
        takes_blockCode hA (hinsts b hbs.1) (hsuccs b hbs.1)
      simp [emitBlocks, emitBlock, hblock, ih hbs.2]
  simp [emitFunc, takes_prologue hA, hblocks _ fun _ h => h]

end Opt

/-- **The allocator uses registers.** -/
theorem allocateRegisters_real {S : Sorting} {F : IRFunc} {n : Nat} {A : Allocation}
    (h : allocateRegisters S F n = .ok A) : A.Real := by
  have hpool : ∀ x ∈ callerSavedPool ++ calleeSavedPool, x < 32 := by decide
  obtain ⟨L, hL, h⟩ := Outcome.bind_eq_ok.mp h
  obtain ⟨hsymm, -, -⟩ := F.interference_spec L
  generalize F.interference L = I at h hsymm
  have hperm : (I.order S F.numVregs).Perm (List.range F.numVregs) := S.perm _ _
  obtain ⟨done, -, hcol⟩ := (Interference.coloured_nil I I.isLeaf).foldl hsymm
    (hperm.nodup_iff.mpr List.nodup_range) (by simp)
  cases h
  refine ⟨fun v x hx => hpool x ?_, fun x hx => List.mem_range.mp (List.mem_filter.mp hx).1⟩
  obtain ⟨-, hallowed⟩ := hcol.reg_mem v x hx
  unfold Interference.allowed at hallowed
  split at hallowed
  · exact List.mem_append_right _ hallowed
  · exact hallowed

end OptCodeGen

/-! ## Modules -/

/-- **A module that can be linked**, if no two of its symbols are the same: they are names, its code
refers to what there is, and the blocks of its functions are numbered and go to each other. -/
structure IRModule.Linkable (m : IRModule) : Prop where
  isName : ∀ n ∈ m.globalNames ++ m.funcNames, IsName n
  closed : m.Closed
  ids : ∀ F ∈ m.funcs, F.blocks.map (·.id) = List.range F.blocks.length
  succs : ∀ F ∈ m.funcs, ∀ b, ∀ s ∈ succsOf (F.blockAt b), s < F.blocks.length

/-- Each function has a label of its name. -/
theorem funcNames_sublist_codeLabels (ids : IRFunc → List Nat) (funcs : List IRFunc) :
    (funcs.map (·.name)).Sublist (funcs.flatMap (·.codeLabels ids)) := by
  induction funcs with
  | nil => exact .slnil
  | cons F funcs ih =>
    rw [List.map_cons, List.flatMap_cons]
    exact List.Sublist.append (List.singleton_sublist.mpr List.mem_cons_self) ih

namespace IRModule.Linkable

variable {m : IRModule}

/-- **The labels of a module are distinct** if and only if its symbols are. -/
theorem labels_nodup_iff (h : m.Linkable) {ids : IRFunc → List Nat}
    (hids : ∀ F ∈ m.funcs, (ids F).Nodup) :
    (m.globalNames ++ m.funcs.flatMap (·.codeLabels ids)).Nodup ↔
      (m.globalNames ++ m.funcNames).Nodup := by
  constructor
  · exact fun hnodup => hnodup.sublist
      ((List.Sublist.refl _).append (funcNames_sublist_codeLabels ids m.funcs))
  · intro hnodup
    obtain ⟨hglobals, hfuncs, hdisj⟩ := List.nodup_append.mp hnodup
    have hm : m.FuncsNamed := ⟨hfuncs, h.isName⟩
    refine List.nodup_append.mpr ⟨hglobals, codeLabels_nodup ids hm hids, ?_⟩
    rintro s hs _ hl rfl
    exact globalName_notMem_codeLabels ids hm hs (fun hmem => hdisj s hs s hmem rfl) hl

/-- The code refers to globals and functions. -/
theorem known (h : m.Linkable) {F : IRFunc} (hF : F ∈ m.funcs) {inst : Inst} (hi : inst ∈ F.insts)
    (ids : IRFunc → List Nat) :
    inst.Known m (m.globalNames ++ m.funcs.flatMap (·.codeLabels ids)) := by
  constructor
  · intro hop
    have hlt := h.closed.globals F hF inst hi hop
    refine List.mem_append_left _ (List.mem_map.mpr ⟨_, List.getElem_mem hlt, ?_⟩)
    simp [IRModule.globalName, hlt]
  · intro hop
    obtain ⟨G, hG, hname, -, -⟩ := h.closed.calls F hF inst hi hop
    exact List.mem_append_right _ (List.mem_flatMap.mpr ⟨G, hG, hname ▸ List.mem_cons_self⟩)

/-- A block of a function has its label. -/
theorem label_mem {F : IRFunc} (hF : F ∈ m.funcs) {ids : IRFunc → List Nat} {s : Nat}
    (hs : s ∈ ids F) : F.label s ∈ m.globalNames ++ m.funcs.flatMap (·.codeLabels ids) :=
  List.mem_append_right _ (List.mem_flatMap.mpr
    ⟨F, hF, List.mem_cons_of_mem _ (List.mem_map_of_mem hs)⟩)

end IRModule.Linkable

/-- There is no code in the data section. -/
theorem code_emitData (m : IRModule) : code (emitData m) = [] := by
  unfold emitData
  split
  · rfl
  · rw [code_cons, code_flatMap]
    simp

/-- **The naive code generator's assembly is assembled** if and only if no two symbols are the
same. -/
theorem generateAsmNaive_assembles {m : IRModule} (h : m.Linkable) :
    Assembles (generateAsmNaive m) ↔ (m.globalNames ++ m.funcNames).Nodup := by
  have hlabels := @NaiveCodeGen.labels_generateAsmNaive m
  have hids : ∀ F ∈ m.funcs, (F.blocks.map (·.id)).Nodup := fun F hF => by
    rw [h.ids F hF]
    exact List.nodup_range
  rw [← h.labels_nodup_iff hids, ← hlabels]
  refine ⟨fun hasm => hasm.labels, fun hnodup => ⟨hnodup, ?_⟩⟩
  rw [hlabels]
  unfold generateAsmNaive
  rw [code_append, code_append, code_emitData, code_flatMap]
  refine takes_flatMap fun F hF => NaiveCodeGen.takes_emitFunc (fun inst hi => h.known hF hi _) ?_
  intro bb hbb s hs
  obtain ⟨b, -, rfl⟩ := IRFunc.exists_blockAt hbb
  refine IRModule.Linkable.label_mem hF ?_
  rw [h.ids F hF]
  exact List.mem_range.mpr (h.succs F hF b s hs)

/-- The code of some functions, each with its allocation. -/
theorem OptCodeGen.takes_emitFuncs {S : Sorting} {m : IRModule} {opt : Bool} {n : Nat}
    {syms : List String} {fs : List IRFunc} {As : List Allocation}
    (hAs : List.Forall₂ (fun f A => allocateRegisters S f n = .ok A) fs As)
    (h : ∀ f ∈ fs, ∀ A, allocateRegisters S f n = .ok A → Takes syms (code (emitFunc m opt A f))) :
    Takes syms (code (List.zipWith (emitFunc m opt) As fs).flatten) := by
  induction hAs with
  | nil => exact takes_nil
  | cons hA _ ih =>
    rw [List.forall_mem_cons] at h
    rw [List.zipWith_cons_cons, List.flatten_cons, code_append]
    exact takes_append.mpr ⟨h.1 _ hA, ih h.2⟩

/-- **So is the optimizing code generator's**, where it does not divide by zero itself. -/
theorem generateAsmOpt_assembles {S : Sorting} {m : IRModule} {opt : Bool} {n : Nat}
    {items : List Item} (h : m.Linkable)
    (hsafe : opt = true → ∀ F ∈ m.funcs, OptCodeGen.EmitsSafely F)
    (hitems : generateAsmOpt S m opt n = .ok items) :
    Assembles items ↔ (m.globalNames ++ m.funcNames).Nodup := by
  obtain ⟨As, hAs, heq⟩ := OptCodeGen.generateAsmOpt_eq hitems
  have hids : ∀ F ∈ m.funcs, (OptCodeGen.order F).map (fun b => (F.blockAt b).id) =
      OptCodeGen.order F := fun F hF =>
    (List.map_congr_left fun b hb =>
      IRFunc.blockAt_id (h.ids F hF) (OptCodeGen.mem_order_lt hb)).trans (List.map_id _)
  have hnodup : ∀ F ∈ m.funcs, ((OptCodeGen.order F).map fun b => (F.blockAt b).id).Nodup :=
    fun F hF => (hids F hF).symm ▸ OptCodeGen.order_nodup
  have hlabels : labels items = m.globalNames ++ m.funcs.flatMap
      (·.codeLabels fun F => (OptCodeGen.order F).map fun b => (F.blockAt b).id) := by
    rw [heq, labels_append, labels_append, labels_emitData,
      OptCodeGen.labels_zipWith hAs.length_eq]
    simp [Item.label?]
  rw [← h.labels_nodup_iff hnodup, ← hlabels]
  refine ⟨fun hasm => hasm.labels, fun hnodup => ⟨hnodup, ?_⟩⟩
  rw [hlabels, heq, code_append, code_append, code_emitData]
  refine OptCodeGen.takes_emitFuncs hAs fun F hF A hA => ?_
  refine OptCodeGen.takes_emitFunc (OptCodeGen.allocateRegisters_real hA) (fun b hb inst hi => ?_)
    fun b hb s hs => ?_
  · exact ⟨h.known hF (IRFunc.mem_insts_iff.mpr ⟨b, hi⟩) _, fun ho => hsafe ho F hF b hb inst hi⟩
  · refine IRModule.Linkable.label_mem hF ?_
    rw [hids F hF]
    exact OptCodeGen.succ_mem_order (h.succs F hF) hb hs

end ToyC
