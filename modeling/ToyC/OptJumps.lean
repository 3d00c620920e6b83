import ToyC.OptBlocks
import ToyC.OptShape

/-!
# Jumps of the optimizing code generator

Only terminators jump, and only to labels of emitted blocks of their own function
(`jumps_emitFunc`). In the assembly of a module each of these labels is defined once
(`generateAsmOpt_jumps`).
-/

namespace ToyC

open Rv32

namespace OptCodeGen

/-! ## Code that does not jump -/

section Jumps

variable {m : IRModule} {opt : Bool} {fr : Frame} {A : Allocation} {override : Option XReg}

@[simp] theorem dests_loadOffVia (scratch reg : XReg) (off : Nat) :
    dests (loadOffVia scratch reg off) = [] :=
  (only_loadOffVia _ _ _).dests

@[simp] theorem dests_storeOffVia (scratch reg : XReg) (off : Nat) :
    dests (storeOffVia scratch reg off) = [] := by
  unfold storeOffVia
  split <;> rfl

@[simp] theorem dests_storeSpill (reg : XReg) (v : Nat) : dests (storeSpill fr A reg v) = [] :=
  dests_storeOffVia _ _ _

@[simp] theorem dests_toReg (v : Val) (scratch : XReg) : dests (toReg fr A v scratch).1 = [] :=
  (only_toReg _ _).dests

@[simp] theorem dests_materialize (v : Val) (x : XReg) : dests (materialize fr A v x) = [] :=
  (only_materialize _ _).dests

@[simp] theorem dests_writeBack (v : Nat) (x : XReg) :
    dests (writeBack fr A override v x) = [] := by
  unfold writeBack
  split <;> simp

@[simp] theorem dests_emitMulConst (rd ra : XReg) (c : Word) :
    dests (emitMulConst rd ra c) = [] :=
  (only_emitMulConst _ _ _).dests

@[simp] theorem dests_emitDivConst (v : Option Nat) (isUnsigned : Bool) (rd ra : XReg) (c : Word) :
    dests (emitDivConst fr A v isUnsigned rd ra c) = [] :=
  (only_emitDivConst _ _ _ _ _).dests

@[simp] theorem dests_emitModConst (v : Option Nat) (isUnsigned : Bool) (rd ra : XReg) (c : Word) :
    dests (emitModConst fr A v isUnsigned rd ra c) = [] :=
  (only_emitModConst _ _ _ _ _).dests

@[simp] theorem dests_opCode (op : Op) (d a b : XReg) : dests (opCode op d a b) = [] :=
  (only_opCode _ _ _ _).dests

theorem dests_emitUnary (dst : Nat) (v : Val) {code : XReg → XReg → List Instr}
    (hcode : ∀ rd ra, dests (code rd ra) = []) :
    dests (emitUnary fr A override dst v code) = [] := by
  unfold emitUnary
  simp [hcode]

@[simp] theorem dests_emitGeneral (inst : Inst) :
    dests (emitGeneral fr A override inst) = [] := by
  unfold emitGeneral
  simp

theorem dests_emitBinary (inst : Inst) : dests (emitBinary opt fr A override inst) = [] := by
  unfold emitBinary
  dsimp only
  repeat' split
  all_goals first
    | exact dests_emitGeneral inst
    | exact dests_emitUnary _ _ fun rd ra => by simp [Instr.dest?]

theorem dests_stackArgs (k : Nat) (vs : List Val) : dests (stackArgs fr A k vs) = [] := by
  induction vs generalizing k with
  | nil => rfl
  | cons v vs ih =>
    unfold stackArgs storeOff
    simp [ih]

theorem dests_regArgs (x : XReg) (vs : List Val) : dests (regArgs fr A x vs) = [] := by
  induction vs generalizing x with
  | nil => rfl
  | cons v vs ih =>
    unfold regArgs
    simp [ih]

theorem dests_callResult (dst : Option Nat) : dests (callResult fr A override dst) = [] := by
  unfold callResult
  split
  · rfl
  · split
    · split <;> rfl
    · simp

/-- **The code of an instruction does not jump.** -/
@[simp] theorem dests_emitInst (inst : Inst) :
    dests (emitInst m opt fr A override inst) = [] := by
  unfold emitInst
  dsimp only
  split
  · simp
  · simp [Instr.dest?]
  · simp [Instr.dest?]
  · exact dests_emitUnary _ _ fun _ _ => rfl
  · exact dests_emitUnary _ _ fun _ _ => rfl
  · unfold emitCall callArgs
    simp [dests_stackArgs, dests_regArgs, dests_callResult, Instr.dest?]
  · exact dests_emitBinary inst

theorem dests_restoreRegs (off : Nat) (xs : List XReg) : dests (restoreRegs off xs) = [] := by
  induction xs generalizing off with
  | nil => rfl
  | cons x xs ih =>
    unfold restoreRegs loadOff
    simp [ih]

@[simp] theorem dests_emitEpilogue : dests (emitEpilogue fr A) = [] := by
  unfold emitEpilogue restore closeFrame loadOff
  repeat' split
  all_goals simp [dests_restoreRegs, Instr.dest?]

theorem dests_emitBranchCmp (op : Op) (a b : Val) (l : String) (negate : Bool) :
    ∀ l' ∈ dests (emitBranchCmp fr A op a b l negate), l' = l := by
  unfold emitBranchCmp
  dsimp only
  split <;> simp [Instr.dest?]

/-! ## Terminators -/

/-- **A terminator jumps to successors.** -/
theorem dests_emitTerm {f : IRFunc} {bb : BasicBlock} {next : Option Nat}
    {fused retFuse : Option Inst} :
    ∀ l ∈ dests (emitTerm m opt fr A f bb next fused retFuse), ∃ s ∈ succsOf bb, l = f.label s := by
  intro l hl
  unfold emitTerm at hl
  have hcmp : ∀ {op a b l' negate}, l ∈ dests (emitBranchCmp fr A op a b l' negate) → l = l' :=
    fun h => dests_emitBranchCmp _ _ _ _ _ l h
  cases hterm : bb.term with
  | None =>
    simp [hterm] at hl
  | Ret =>
    simp only [hterm, dests_append, dests_emitEpilogue, List.append_nil] at hl
    split at hl
    · simp at hl
    · split at hl <;> simp at hl
  | Jmp =>
    simp only [hterm] at hl
    split at hl
    · exact ⟨bb.succ0, by simp [succsOf, hterm], by simpa [Instr.dest?] using hl⟩
    · simp at hl
  | Br =>
    have h₀ : bb.succ0 ∈ succsOf bb := by simp [succsOf, hterm]
    have h₁ : bb.succ1 ∈ succsOf bb := by simp [succsOf, hterm]
    simp only [hterm] at hl
    split at hl
    · split at hl
      · exact ⟨_, h₀, hcmp hl⟩
      · split at hl
        · exact ⟨_, h₁, hcmp hl⟩
        · rw [dests_append] at hl
          rcases List.mem_append.mp hl with hl | hl
          · exact ⟨_, h₀, hcmp hl⟩
          · exact ⟨_, h₁, by simpa [Instr.dest?] using hl⟩
    · rw [dests_append, dests_toReg, List.nil_append] at hl
      split at hl
      · exact ⟨_, h₀, by simpa [Instr.dest?] using hl⟩
      · split at hl
        · exact ⟨_, h₁, by simpa [Instr.dest?] using hl⟩
        · simp only [dests_cons, Instr.dest?, Option.toList_some, dests_nil, List.singleton_append,
            List.mem_cons, List.not_mem_nil, or_false] at hl
          exact hl.elim (fun h => ⟨_, h₀, h⟩) fun h => ⟨_, h₁, h⟩

/-- **A function jumps to labels of its own blocks**, and to emitted ones. -/
theorem jumps_emitFunc {F : IRFunc} (hsuccs : ∀ b, ∀ s ∈ succsOf (F.blockAt b), s < F.blocks.length)
    {l : String} (hl : l ∈ jumps (emitFunc m opt A F)) : ∃ s ∈ order F, l = F.label s := by
  have hmove : ∀ (vs : List Nat) i, dests (moveParams (frameOf A F) A i vs) = [] := by
    intro vs
    induction vs with
    | nil => exact fun _ => rfl
    | cons v vs ih =>
      intro i
      unfold moveParams loadOff
      rw [dests_append, ih, List.append_nil]
      repeat' split
      all_goals simp [Instr.dest?]
  have hsave : ∀ (xs : List XReg) off, dests (saveRegs off xs) = [] := by
    intro xs
    induction xs with
    | nil => exact fun _ => rfl
    | cons x xs ih =>
      intro off
      unfold saveRegs storeOff
      simp [ih]
  have hprologue : dests (prologue (frameOf A F) A F) = [] := by
    unfold prologue openFrame storeOff
    simp only [dests_append, hmove, hsave, List.append_nil]
    repeat' split
    all_goals simp [Instr.dest?]
  have hblocks : ∀ bs : List Nat, (∀ b ∈ bs, b ∈ order F) →
      l ∈ jumps (emitBlocks m opt (frameOf A F) A F bs) → ∃ s ∈ order F, l = F.label s := by
    intro bs
    induction bs with
    | nil => exact fun _ h => by cases h
    | cons b bs ih =>
      intro hbs h
      unfold emitBlocks emitBlock blockCode at h
      rw [jumps_append] at h
      rcases List.mem_append.mp h with h | h
      · have hplain : ∀ insts : List Inst,
            dests (insts.flatMap (emitInst m opt (frameOf A F) A none)) = [] := by
          intro insts
          induction insts with
          | nil => rfl
          | cons inst insts ih => rw [List.flatMap_cons, dests_append, dests_emitInst, ih]; rfl
        replace h : l ∈ jumps ((_ : List Instr).map Item.instr) := h
        rw [jumps_instr, dests_append, hplain, List.nil_append] at h
        obtain ⟨s, hs, rfl⟩ := dests_emitTerm l h
        exact ⟨s, succ_mem_order hsuccs (hbs b List.mem_cons_self) hs, rfl⟩
      · exact ih (fun c hc => hbs c (List.mem_cons_of_mem _ hc)) h
  unfold emitFunc at hl
  simp only [jumps_append, jumps_instr, hprologue, List.append_nil] at hl
  exact hblocks _ (fun _ h => h) hl

end Jumps

/-- **Every label that is jumped to is defined once** in the assembly of a module whose functions
have names of their own. -/
theorem generateAsmOpt_jumps {S : Sorting} {m : IRModule} {opt : Bool} {n : Nat} {img : Image}
    (hm : m.FuncsNamed) (hids : ∀ F ∈ m.funcs, F.blocks.map (·.id) = List.range F.blocks.length)
    (hsuccs : ∀ F ∈ m.funcs, ∀ b, ∀ s ∈ succsOf (F.blockAt b), s < F.blocks.length)
    (h : generateAsmOpt S m opt n = .ok img.items) :
    ∀ l ∈ jumps img.items, (labels img.items).count l = 1 := by
  intro l hl
  obtain ⟨As, hAs, hitems⟩ := generateAsmOpt_eq h
  have hdata : jumps (emitData m) = [] := by
    unfold emitData
    split
    · rfl
    · show jumps (m.globals.flatMap _) = []
      induction m.globals with
      | nil => rfl
      | cons g gs ih =>
        rw [List.flatMap_cons, jumps_append, ih]
        rfl
  rw [hitems, jumps_append, jumps_append, hdata] at hl
  have hl : l ∈ jumps (List.zipWith (emitFunc m opt) As m.funcs).flatten := hl
  obtain ⟨F, hF, s, hs, rfl⟩ : ∃ F ∈ m.funcs, ∃ s ∈ order F, l = F.label s := by
    obtain ⟨item, hitem, hl⟩ := List.mem_flatMap.mp hl
    obtain ⟨code, hcode, hitem⟩ := List.mem_flatten.mp hitem
    obtain ⟨i, hi, rfl⟩ := List.getElem_of_mem hcode
    rw [List.getElem_zipWith] at hitem
    have hF := List.getElem_mem (l := m.funcs) (n := i) (by simp at hi; omega)
    exact ⟨_, hF, jumps_emitFunc (hsuccs _ hF) (List.mem_flatMap.mpr ⟨item, hitem, hl⟩)⟩
  obtain ⟨A, -, hat⟩ := generateAsmOpt_funcAt hm hids h hF
  exact hat.once s hs

end OptCodeGen

end ToyC
