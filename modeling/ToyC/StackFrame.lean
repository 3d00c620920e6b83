import ToyC.IR
import ToyC.Registers
import ToyC.Lib.Rv32

/-!
# Stack frames

What the two code generators have in common: the sizes of the parts of a frame, access to
a word of it at any offset, and the labels and the data section of the output. An offset
that does not fit an instruction is first loaded into a scratch register; the generators
differ in which one that is, so it is a parameter here.
-/

namespace ToyC

open Rv32

/-- Whether a number fits the immediate of an instruction. -/
def fits12 (x : Int) : Bool := decide (-2048 ≤ x) && decide (x ≤ 2047)

/-- Round up to a multiple of 16. -/
def align16 (x : Nat) : Nat := (x + 15) / 16 * 16

/-- The words the stack arguments of an instruction need. -/
def Inst.stackArgs (inst : Inst) : Nat := if inst.op = .Call then inst.args.length - 8 else 0

/-- The words the stack arguments of any call of a function need. -/
def IRFunc.maxStackArgs (F : IRFunc) : Nat :=
  F.blocks.foldl (fun n bb => bb.insts.foldl (fun n inst => max n inst.stackArgs) n) 0

/-- The label of a block. -/
def IRFunc.label (F : IRFunc) (b : Nat) : String := ".L" ++ F.name ++ "_" ++ toString b

/-- The name of a global. -/
def IRModule.globalName (m : IRModule) (gid : Nat) : String := (m.globals.getD gid {}).name

/-- **The data section**: the globals with their initial values. -/
def emitData (m : IRModule) : List Item :=
  if m.globals.isEmpty then []
  else .data :: m.globals.flatMap fun g => [.globl g.name, .p2align 2, .label g.name, .word g.init]

/-- Load a word of the frame. -/
def loadOffVia (scratch reg : XReg) (off : Nat) : List Instr :=
  if fits12 off then [.lw reg off XReg.sp]
  else [.li scratch (BitVec.ofNat 32 off), .add scratch XReg.sp scratch, .lw reg 0 scratch]

/-- Store a word of the frame. -/
def storeOffVia (scratch reg : XReg) (off : Nat) : List Instr :=
  if fits12 off then [.sw reg off XReg.sp]
  else [.li scratch (BitVec.ofNat 32 off), .add scratch XReg.sp scratch, .sw reg 0 scratch]

/-- Make room for a frame. -/
def openFrame (frameSize : Nat) : List Instr :=
  if fits12 (-frameSize) then [.addi XReg.sp XReg.sp (-frameSize)]
  else [.li XReg.t6 (BitVec.ofNat 32 frameSize), .sub XReg.sp XReg.sp XReg.t6]

/-- Give it back. -/
def closeFrame (frameSize : Nat) : List Instr :=
  if fits12 frameSize then [.addi XReg.sp XReg.sp frameSize]
  else [.li XReg.t6 (BitVec.ofNat 32 frameSize), .add XReg.sp XReg.sp XReg.t6]

/-! ## Sizes -/

theorem le_align16 (x : Nat) : x ≤ align16 x := by
  unfold align16
  omega

theorem align16_dvd (x : Nat) : 16 ∣ align16 x := Nat.dvd_mul_left 16 _

/-- A loop whose turns do not lower its count does not lower it. -/
theorem le_foldl {α : Type} {f : Nat → α → Nat} (hf : ∀ n x, n ≤ f n x) (xs : List α) (n : Nat) :
    n ≤ xs.foldl f n := by
  induction xs generalizing n with
  | nil => exact Nat.le_refl n
  | cons x xs ih => exact Nat.le_trans (hf n x) (ih _)

/-- It ends above what any of its turns makes sure of. -/
theorem le_foldl_of_mem {α : Type} {f : Nat → α → Nat} (hf : ∀ n x, n ≤ f n x) {xs : List α}
    {x : α} (hx : x ∈ xs) {k : Nat} (h : ∀ n, k ≤ f n x) (n : Nat) : k ≤ xs.foldl f n := by
  induction xs generalizing n with
  | nil => cases hx
  | cons y xs ih =>
    rcases List.mem_cons.mp hx with rfl | hx
    · exact Nat.le_trans (h n) (le_foldl hf xs _)
    · exact ih hx _

/-- **The outgoing area is large enough for every call.** -/
theorem IRFunc.stackArgs_le {F : IRFunc} {bb : BasicBlock} (hbb : bb ∈ F.blocks) {inst : Inst}
    (hi : inst ∈ bb.insts) : inst.stackArgs ≤ F.maxStackArgs := by
  have hmax : ∀ n (inst : Inst), n ≤ max n inst.stackArgs := fun n _ => Nat.le_max_left n _
  exact le_foldl_of_mem (fun n bb => le_foldl hmax bb.insts n) hbb
    (fun n => le_foldl_of_mem hmax hi (fun n => Nat.le_max_right n _) n) 0

/-! ## Words of a frame -/

/-- A word of a frame. -/
def cell (b : BitVec 32) (off : Nat) : BitVec 32 := b + BitVec.ofNat 32 off

theorem cell_toNat {b : BitVec 32} {off : Nat} (h : b.toNat + off < 2 ^ 32) :
    (cell b off).toNat = b.toNat + off := by
  unfold cell
  rw [BitVec.toNat_add, BitVec.toNat_ofNat]
  omega

theorem cell_aligned {b : BitVec 32} (hb : Aligned b) {off : Nat} (hoff : 4 ∣ off) :
    Aligned (cell b off) := by
  unfold Aligned cell at *
  rw [BitVec.toNat_add, BitVec.toNat_ofNat]
  omega

theorem cell_cell (b : BitVec 32) (x y : Nat) : cell (cell b x) y = cell b (x + y) := by
  unfold cell
  rw [BitVec.add_assoc, BitVec.ofNat_add]

theorem ofInt_natCast (off : Nat) : BitVec.ofInt 32 (off : Int) = BitVec.ofNat 32 off :=
  BitVec.ofInt_natCast 32 off

section Access

variable {sym : String → BitVec 32} {σ : Data} {b : BitVec 32} {scratch reg : XReg} {off : Nat}

/-- **Loading a word of the frame.** -/
theorem loadOffVia_does (hs : scratch ≠ 0) (hsp : scratch ≠ XReg.sp) (hr : reg ≠ 0)
    (hb : σ.get XReg.sp = b) (hal : Aligned (cell b off)) :
    Does sym (loadOffVia scratch reg off) σ fun σ' =>
      σ'.mem = σ.mem ∧ σ'.get reg = σ.mem (cell b off) ∧ Keeps [reg, scratch] σ σ' := by
  unfold loadOffVia
  split
  · rename_i hfit
    have haddr : σ.get XReg.sp + BitVec.ofInt 32 (off : Int) = cell b off := by
      rw [hb, ofInt_natCast]
      rfl
    refine .single (σ.set reg (σ.mem (cell b off))) ?_
      ⟨rfl, σ.get_set_self hr _, keeps_set (by simp) _⟩
    simp only [Instr.exec, haddr]
    rw [if_pos ⟨hfit, hal⟩]
  · set σ₁ := σ.set scratch (BitVec.ofNat 32 off) with hσ₁
    set σ₂ := σ₁.set scratch (cell b off) with hσ₂
    have hadd : (Instr.add scratch XReg.sp scratch).exec sym σ₁ = .ok σ₂ := by
      simp only [Instr.exec, AluOp.eval]
      rw [σ.get_set_of_ne hsp.symm, σ.get_set_self hs, hb]
      rfl
    have haddr : σ₂.get scratch + BitVec.ofInt 32 0 = cell b off := by
      rw [σ₁.get_set_self hs]
      simp
    refine .cons σ₁ rfl (.cons σ₂ hadd (.single (σ₂.set reg (σ.mem (cell b off))) ?_
      ⟨rfl, σ₂.get_set_self hr _, ?_⟩))
    · simp only [Instr.exec, haddr]
      rw [if_pos ⟨rfl, hal⟩]
      rfl
    · refine (keeps_set (by simp) _).trans ((keeps_set (by simp) _).trans (keeps_set (by simp) _))

/-- **Storing a word of the frame**, whichever register it is in: where the offset needs the
scratch register, this holds the address afterwards, and a register that is the scratch register
is not stored, but the address is. -/
theorem storeOffVia_effect (hs : scratch ≠ 0) (hsp : scratch ≠ XReg.sp) (hb : σ.get XReg.sp = b)
    (hal : Aligned (cell b off)) :
    Does sym (storeOffVia scratch reg off) σ fun σ' =>
      σ'.mem = (σ.store (cell b off)
        (if fits12 off = true ∨ reg ≠ scratch then σ.get reg else cell b off)).mem ∧
      (σ'.get scratch = if fits12 off then σ.get scratch else cell b off) ∧
      Keeps [scratch] σ σ' := by
  unfold storeOffVia
  split
  · rename_i hfit
    have haddr : σ.get XReg.sp + BitVec.ofInt 32 (off : Int) = cell b off := by
      rw [hb, ofInt_natCast]
      rfl
    refine .single (σ.store (cell b off) (σ.get reg)) ?_ ⟨?_, rfl, keeps_store _ _ _⟩
    · simp only [Instr.exec, haddr]
      rw [if_pos ⟨hfit, hal⟩]
    · rw [if_pos (.inl hfit)]
  · rename_i hfit
    set σ₁ := σ.set scratch (BitVec.ofNat 32 off) with hσ₁
    set σ₂ := σ₁.set scratch (cell b off) with hσ₂
    have hadd : (Instr.add scratch XReg.sp scratch).exec sym σ₁ = .ok σ₂ := by
      simp only [Instr.exec, AluOp.eval]
      rw [σ.get_set_of_ne hsp.symm, σ.get_set_self hs, hb]
      rfl
    have haddr : σ₂.get scratch + BitVec.ofInt 32 0 = cell b off := by
      rw [σ₁.get_set_self hs]
      simp
    have hreg : σ₂.get reg = if fits12 off = true ∨ reg ≠ scratch then σ.get reg
        else cell b off := by
      by_cases hr : reg = scratch
      · subst hr
        rw [if_neg (by simpa using hfit)]
        exact σ₁.get_set_self hs _
      · rw [if_pos (.inr hr), σ₁.get_set_of_ne hr, σ.get_set_of_ne hr]
    refine .cons σ₁ rfl (.cons σ₂ hadd (.single (σ₂.store (cell b off) (σ₂.get reg)) ?_
      ⟨?_, σ₁.get_set_self hs _, ?_⟩))
    · simp only [Instr.exec, haddr]
      rw [if_pos ⟨rfl, hal⟩]
    · rw [hreg]
      rfl
    · exact (keeps_set (by simp) _).trans ((keeps_set (by simp) _).trans (keeps_store _ _ _))

/-- The same, where the scratch register is not the one that is stored, or not needed. -/
theorem storeOffVia_does (hs : scratch ≠ 0) (hsp : scratch ≠ XReg.sp)
    (hr : reg ≠ scratch ∨ fits12 off = true) (hb : σ.get XReg.sp = b)
    (hal : Aligned (cell b off)) :
    Does sym (storeOffVia scratch reg off) σ fun σ' =>
      σ'.mem = (σ.store (cell b off) (σ.get reg)).mem ∧ Keeps [scratch] σ σ' := by
  refine (storeOffVia_effect hs hsp hb hal).mono fun σ' ⟨hmem, _, hk⟩ => ⟨?_, hk⟩
  rwa [if_pos hr.symm] at hmem

/-- **Making room for a frame.** -/
theorem openFrame_does (n : Nat) (hb : σ.get XReg.sp = cell b n) :
    Does sym (openFrame n) σ fun σ' =>
      σ'.mem = σ.mem ∧ σ'.get XReg.sp = b ∧ Keeps [XReg.sp, XReg.t6] σ σ' := by
  unfold openFrame
  have hsub : cell b n - BitVec.ofNat 32 n = b := BitVec.add_sub_cancel b _
  split
  · rename_i hfit
    refine .single (σ.set XReg.sp b) ?_
      ⟨rfl, σ.get_set_self (by decide) _, keeps_set (by simp) _⟩
    simp only [Instr.exec, ImmOp.eval, hb]
    rw [if_pos (show isImm12 _ = true from hfit), BitVec.ofInt_neg, ofInt_natCast,
      ← BitVec.sub_eq_add_neg, hsub]
  · refine .cons (σ.set XReg.t6 (BitVec.ofNat 32 n)) rfl (.single
      ((σ.set XReg.t6 (BitVec.ofNat 32 n)).set XReg.sp b) ?_
      ⟨rfl, Data.get_set_self _ (by decide) _,
        (keeps_set (by simp) _).trans (keeps_set (by simp) _)⟩)
    simp only [Instr.exec, AluOp.eval]
    rw [σ.get_set_of_ne (by decide), σ.get_set_self (by decide), hb, hsub]

/-- **Giving a frame back.** -/
theorem closeFrame_does (n : Nat) (hb : σ.get XReg.sp = b) :
    Does sym (closeFrame n) σ fun σ' =>
      σ'.mem = σ.mem ∧ σ'.get XReg.sp = cell b n ∧ Keeps [XReg.sp, XReg.t6] σ σ' := by
  unfold closeFrame
  split
  · rename_i hfit
    refine .single (σ.set XReg.sp (cell b n)) ?_
      ⟨rfl, σ.get_set_self (by decide) _, keeps_set (by simp) _⟩
    simp only [Instr.exec, ImmOp.eval, hb]
    rw [if_pos (show isImm12 _ = true from hfit), ofInt_natCast]
    rfl
  · refine .cons (σ.set XReg.t6 (BitVec.ofNat 32 n)) rfl (.single
      ((σ.set XReg.t6 (BitVec.ofNat 32 n)).set XReg.sp (cell b n)) ?_
      ⟨rfl, Data.get_set_self _ (by decide) _,
        (keeps_set (by simp) _).trans (keeps_set (by simp) _)⟩)
    simp only [Instr.exec, AluOp.eval]
    rw [σ.get_set_of_ne (by decide), σ.get_set_self (by decide), hb]
    rfl

end Access

end ToyC
