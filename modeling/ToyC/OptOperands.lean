import ToyC.OptCodeGen
import ToyC.IRReads

/-!
# Values in their locations

The vregs as the registers and the spill slots of an allocation hold them (`locs`), and the
code that gets an operand into a register. The generator uses four registers beside those of
the allocation: `t5` and `t6` for operands and results, `a7` for the address of a slot that
is too far away, and `a6` in the code of a remainder. None of them ever holds a vreg, so none of this
code disturbs one (`locs_of_keeps`).
-/

namespace ToyC

open Rv32

/-- The registers a vreg may get. -/
def allocatable : List XReg := callerSavedPool ++ calleeSavedPool

/-- **A vreg has a place**: a register of the two pools, or a spill slot. -/
def Allocation.Locates (A : Allocation) (v : Nat) : Prop :=
  (∃ x ∈ allocatable, A.reg v = some x) ∨ A.reg v = none ∧ ∃ s, A.spillSlot v = some s

namespace OptCodeGen

/-- The registers no vreg is kept in, which the code of an instruction may change. -/
def scratches : List XReg := [scratch0, scratch1, XReg.a6, XReg.a7]

theorem notMem_scratches {x : XReg} (hx : x ∈ allocatable) : x ∉ scratches := by
  revert x
  decide

theorem allocatable_ne {x y : XReg} (hx : x ∈ allocatable)
    (hy : y ∉ allocatable) : x ≠ y := by
  rintro rfl
  exact hy hx

/-- Where the spill slot of a vreg is in memory. -/
def slotAddr (fr : Frame) (A : Allocation) (b : BitVec 32) (v : Nat) : BitVec 32 :=
  cell b (spillOff fr A v)

/-- **The vregs as their locations hold them.** -/
def locs (fr : Frame) (A : Allocation) (σ : Data) : Regs := fun v =>
  match A.reg v with
  | some x => σ.get x
  | none => σ.mem (slotAddr fr A (σ.get XReg.sp) v)

section Operands

variable {sym : String → BitVec 32} {fr : Frame} {A : Allocation} {σ σ' : Data}

theorem locs_reg {v : Nat} {x : XReg} (h : A.reg v = some x) : locs fr A σ v = σ.get x := by
  unfold locs
  rw [h]

theorem locs_slot {v : Nat} (h : A.reg v = none) :
    locs fr A σ v = σ.mem (slotAddr fr A (σ.get XReg.sp) v) := by
  unfold locs
  rw [h]

/-- **Scratch registers hold no vreg.** -/
theorem locs_of_keeps {v : Nat} (hv : A.Locates v) (hmem : σ'.mem = σ.mem)
    (hk : Keeps scratches σ σ') : locs fr A σ' v = locs fr A σ v := by
  rcases hv with ⟨x, hx, hreg⟩ | ⟨hreg, -⟩
  · rw [locs_reg hreg, locs_reg hreg, hk x (notMem_scratches hx)]
  · rw [locs_slot hreg, locs_slot hreg, hmem, hk XReg.sp (by decide)]

/-- An operand is located when its register is. -/
def ValLocated (A : Allocation) (v : Val) : Prop := ∀ r, v.reg? = some r → A.Locates r

theorem eval_of_keeps {v : Val} (hv : ValLocated A v) (hmem : σ'.mem = σ.mem)
    (hk : Keeps scratches σ σ') : v.eval (locs fr A σ') = v.eval (locs fr A σ) :=
  Val.eval_congr fun r hr => locs_of_keeps (hv r hr) hmem hk

/-- **A frame in its place**: the stack pointer and the spill slots are aligned. -/
structure SlotsAligned (fr : Frame) (σ : Data) : Prop where
  base : 4 ∣ fr.spillBase
  sp : Aligned (σ.get XReg.sp)

theorem SlotsAligned.slot (h : SlotsAligned fr σ) (v : Nat) :
    Aligned (slotAddr fr A (σ.get XReg.sp) v) := by
  refine cell_aligned h.sp ?_
  have := h.base
  unfold spillOff
  omega

theorem SlotsAligned.of_keeps {touched : List XReg} (h : SlotsAligned fr σ)
    (hk : Keeps touched σ σ') (hsp : XReg.sp ∉ touched) : SlotsAligned fr σ' where
  base := h.base
  sp := by
    rw [hk _ hsp]
    exact h.sp

/-! ## Getting operands -/

/-- Loading a spill slot. -/
theorem loadSpill_leaves {reg : XReg} (h : SlotsAligned fr σ) (hr : reg ≠ 0) {v : Nat}
    (hv : A.reg v = none) :
    Leaves sym (loadSpill fr A reg v) σ reg (locs fr A σ v) [reg, XReg.a7] := by
  rw [locs_slot hv]
  exact loadOffVia_does (by decide) (by decide) hr rfl (h.slot v)

theorem toReg_zero (fr : Frame) (A : Allocation) (scratch : XReg) :
    toReg fr A (.imm 0) scratch = ([], XReg.zero) := rfl

theorem toReg_imm (fr : Frame) (A : Allocation) {i : Word} (hi : i ≠ 0) (scratch : XReg) :
    toReg fr A (.imm i) scratch = ([.li scratch i], scratch) := if_neg hi

theorem toReg_reg (fr : Frame) {r : Nat} {x : XReg} (h : A.reg r = some x) (scratch : XReg) :
    toReg fr A (.reg r) scratch = ([], x) := by
  simp only [toReg, h]

theorem toReg_slot (fr : Frame) {r : Nat} (h : A.reg r = none) (scratch : XReg) :
    toReg fr A (.reg r) scratch = (loadSpill fr A scratch r, scratch) := by
  simp only [toReg, h]

/-- The register an operand is found in is not one of those the code still needs. -/
theorem toReg_ne {v : Val} (hv : ValLocated A v) {scratch y : XReg} (hy : y ∉ allocatable)
    (hy0 : y ≠ 0) (hs : scratch ≠ y) : (toReg fr A v scratch).2 ≠ y := by
  cases v with
  | imm i =>
    by_cases hi : i = 0
    · rw [hi, toReg_zero]
      exact hy0.symm
    · rw [toReg_imm fr A hi]
      exact hs
  | reg r =>
    rcases hv r rfl with ⟨x, hx, hreg⟩ | ⟨hreg, -⟩
    · rw [toReg_reg fr hreg]
      exact allocatable_ne hx hy
    · rw [toReg_slot fr hreg]
      exact hs

/-- **Getting an operand into some register.** -/
theorem toReg_leaves {v : Val} {scratch : XReg} (h : SlotsAligned fr σ) (hs : scratch ≠ 0) :
    Leaves sym (toReg fr A v scratch).1 σ (toReg fr A v scratch).2 (v.eval (locs fr A σ))
      [scratch, XReg.a7] := by
  cases v with
  | imm i =>
    by_cases hi : i = 0
    · rw [hi, toReg_zero]
      exact .nil rfl
    · rw [toReg_imm fr A hi]
      exact .single rfl hs (by simp)
  | reg r =>
    cases hreg : A.reg r with
    | some x =>
      rw [toReg_reg fr hreg]
      exact .nil (locs_reg hreg).symm
    | none =>
      rw [toReg_slot fr hreg]
      exact loadSpill_leaves h hs hreg

theorem materialize_reg (fr : Frame) {r : Nat} {p : XReg} (h : A.reg r = some p) (x : XReg) :
    materialize fr A (.reg r) x = if p ≠ x then [.mv x p] else [] := by
  simp only [materialize, h]

theorem materialize_slot (fr : Frame) {r : Nat} (h : A.reg r = none) (x : XReg) :
    materialize fr A (.reg r) x = loadSpill fr A x r := by
  simp only [materialize, h]

/-- **Placing an operand into a register.** -/
theorem materialize_leaves {v : Val} {x : XReg} (h : SlotsAligned fr σ) (hx : x ≠ 0) :
    Leaves sym (materialize fr A v x) σ x (v.eval (locs fr A σ)) [x, XReg.a7] := by
  cases v with
  | imm i => exact .single rfl hx (by simp)
  | reg r =>
    cases hreg : A.reg r with
    | some p =>
      rw [materialize_reg fr hreg]
      by_cases hp : p = x
      · subst hp
        rw [if_neg (not_not.mpr rfl)]
        exact .nil (locs_reg hreg).symm
      · rw [if_pos hp]
        refine .single ?_ hx (by simp)
        rw [exec_alui rfl, eval_mv, Val.eval_reg, locs_reg hreg]
    | none =>
      rw [materialize_slot fr hreg]
      exact loadSpill_leaves h hx hreg

end Operands

end OptCodeGen

end ToyC
