import ToyC.OptOperands
import ToyC.ConstOps
import ToyC.Lib.Paths

/-!
# Code that only computes

Most of what the generator emits computes in registers: it loads operands, and the sequences for
constants work in the register of the result and a few for temporary values.
-/

namespace ToyC

open Rv32

@[simp] theorem only_loadOffVia (scratch reg : XReg) (off : Nat) :
    Only [reg, scratch] (loadOffVia scratch reg off) := by
  unfold loadOffVia
  split <;> simp [Instr.rd?]

@[simp] theorem only_closeFrame (n : Nat) : Only [XReg.sp, XReg.t6] (closeFrame n) := by
  unfold closeFrame
  split <;> simp [Instr.rd?]

@[simp] theorem only_openFrame (n : Nat) : Only [XReg.sp, XReg.t6] (openFrame n) := by
  unfold openFrame
  split <;> simp [Instr.rd?]

namespace OptCodeGen

section Only

variable {fr : Frame} {A : Allocation}

theorem only_loadSpill (reg : XReg) (v : Nat) : Only [reg, XReg.a7] (loadSpill fr A reg v) :=
  only_loadOffVia _ _ _

/-- **Getting an operand** into some register. -/
theorem only_toReg (v : Val) (scratch : XReg) :
    Only [scratch, XReg.a7] (toReg fr A v scratch).1 := by
  unfold toReg
  split
  · split <;> simp [Instr.rd?]
  · split
    · simp
    · exact only_loadSpill _ _

/-- **Placing an operand** into a register. -/
theorem only_materialize (v : Val) (x : XReg) : Only [x, XReg.a7] (materialize fr A v x) := by
  unfold materialize
  split
  · simp [Instr.rd?]
  · split
    · split <;> simp [Instr.rd?]
    · exact only_loadSpill _ _

theorem only_negIf (c : Word) (rd : XReg) : Only [rd] (negIf c rd) := by
  unfold negIf
  split <;> simp [Instr.rd?]

theorem only_emitMulConst (rd ra : XReg) (c : Word) :
    Only [rd, scratch1] (emitMulConst rd ra c) := by
  have hneg : Only [rd, scratch1] (negIf c rd) := (only_negIf c rd).mono (by simp)
  unfold emitMulConst
  dsimp only
  repeat' split
  all_goals simp [Instr.rd?, hneg]

theorem only_emitPow2Bias (s r : XReg) (k : Nat) : Only [s] (emitPow2Bias s r k) := by
  unfold emitPow2Bias
  split <;> simp [Instr.rd?]

theorem only_magicReg (v : Option Nat) (magic : Word) :
    Only [scratch1, XReg.a7] (magicReg fr A v magic).1 := by
  unfold magicReg
  split
  · exact (only_toReg _ _).mono (by simp)
  · simp [Instr.rd?]

theorem only_emitMagicQuotient (v : Option Nat) (isUnsigned : Bool) (q ra : XReg) (c : Word) :
    Only [q, scratch1, XReg.a7] (emitMagicQuotient fr A v isUnsigned q ra c) := by
  have hmagic : ∀ magic, Only [q, scratch1, XReg.a7] (magicReg fr A v magic).1 := fun magic =>
    (only_magicReg v magic).mono (by simp)
  unfold emitMagicQuotient
  dsimp only
  repeat' split
  all_goals simp [Instr.rd?, hmagic]

theorem scratch1_mem_divTemps : scratch1 ∈ divTemps := by decide

theorem a6_mem_divTemps : XReg.a6 ∈ divTemps := by decide

theorem a7_mem_divTemps : XReg.a7 ∈ divTemps := by decide

/-- **A quotient by a constant.** -/
theorem only_emitDivConst (v : Option Nat) (isUnsigned : Bool) (rd ra : XReg) (c : Word) :
    Only (rd :: divTemps) (emitDivConst fr A v isUnsigned rd ra c) := by
  have hneg : Only (rd :: divTemps) (negIf c rd) := (only_negIf c rd).mono (by simp)
  have hbias : ∀ k, Only (rd :: divTemps) (emitPow2Bias scratch1 ra k) := fun k =>
    (only_emitPow2Bias _ _ _).mono (by simp [divTemps])
  have hquot : Only (rd :: divTemps) (emitMagicQuotient fr A v isUnsigned rd ra c) :=
    (only_emitMagicQuotient _ _ _ _ _).mono (by simp [divTemps])
  unfold emitDivConst
  dsimp only
  repeat' split
  all_goals simp [Instr.rd?, hneg, hbias, hquot, scratch1_mem_divTemps]

/-- **A remainder by a constant.** -/
theorem only_emitModConst (v : Option Nat) (isUnsigned : Bool) (rd ra : XReg) (c : Word) :
    Only (rd :: divTemps) (emitModConst fr A v isUnsigned rd ra c) := by
  have hbias : ∀ k, Only (rd :: divTemps) (emitPow2Bias scratch1 ra k) := fun k =>
    (only_emitPow2Bias _ _ _).mono (by simp [divTemps])
  have hquot : Only (rd :: divTemps) (emitMagicQuotient fr A v isUnsigned XReg.a6 ra c) :=
    (only_emitMagicQuotient _ _ _ _ _).mono (by simp [divTemps])
  have hmul : ∀ q, Only (rd :: divTemps) (emitMulConst XReg.a7 q c) := fun q =>
    (only_emitMulConst _ _ _).mono (by simp [divTemps])
  have hmagic : ∀ magic, Only (rd :: divTemps) (magicReg fr A v magic).1 := fun magic =>
    (only_magicReg v magic).mono (by simp [divTemps])
  unfold emitModConst
  dsimp only
  repeat' split
  all_goals simp [Instr.rd?, hbias, hquot, hmul, hmagic, scratch1_mem_divTemps, a6_mem_divTemps,
    a7_mem_divTemps]

theorem only_opCode (op : Op) (d a b : XReg) : Only [d] (opCode op d a b) := by
  cases op <;> simp [opCode, Instr.rd?]

theorem only_restoreRegs (off : Nat) (xs : List XReg) :
    Only (XReg.a7 :: xs) (restoreRegs off xs) := by
  induction xs generalizing off with
  | nil => exact only_nil _
  | cons x xs ih =>
    unfold restoreRegs
    refine (only_append _ _ _).mpr ⟨(only_loadOffVia _ _ _).mono (by simp), (ih _).mono ?_⟩
    intro y hy
    rcases List.mem_cons.mp hy with rfl | hy
    · exact List.mem_cons_self
    · exact List.mem_cons_of_mem _ (List.mem_cons_of_mem _ hy)

/-- **The end of a function.** -/
theorem only_restore :
    Only (XReg.a7 :: XReg.t6 :: XReg.sp :: XReg.ra :: A.usedCallee) (restore fr A) := by
  have hregs : Only (XReg.a7 :: XReg.t6 :: XReg.sp :: XReg.ra :: A.usedCallee)
      (restoreRegs fr.calleeBase A.usedCallee) := by
    refine (only_restoreRegs _ _).mono fun x hx => ?_
    rcases List.mem_cons.mp hx with rfl | hx
    · exact List.mem_cons_self
    · simp [hx]
  have hra : Only (XReg.a7 :: XReg.t6 :: XReg.sp :: XReg.ra :: A.usedCallee)
      (loadOff XReg.ra fr.raOff) := (only_loadOffVia _ _ _).mono (by simp)
  have hsp : Only (XReg.a7 :: XReg.t6 :: XReg.sp :: XReg.ra :: A.usedCallee)
      (closeFrame fr.frameSize) := (only_closeFrame _).mono (by simp)
  unfold restore
  refine (only_append _ _ _).mpr ⟨(only_append _ _ _).mpr ⟨hregs, ?_⟩, ?_⟩
  · split
    · exact only_nil _
    · exact hra
  · split
    · exact hsp
    · exact only_nil _

end Only

end OptCodeGen

end ToyC
