import ToyC.ConstExpr
import ToyC.IRRuns

/-!
# Constant folding and algebraic simplification

The pass looks at one instruction at a time. A binary operation on two constants becomes an `Mv` of
the result, and so does one that an identity decides; some become an `Mv` or a `Neg` of an operand.
The arithmetic of the folder is taken to wrap around.

Every rewrite writes the value the instruction wrote, where the divisor is not zero
(`foldInst_exec`), and on two constants it is the value the analysis of the source computes
(`foldImm_eq_evalBin`). So a run without a division by zero stays what it was
(`constFold_correct`).
-/

namespace ToyC

open Machine

/-- Whether two operands are the same vreg. -/
def sameReg (a b : Val) : Bool := a.isReg && b.isReg && a == b

/-- The result of an operation on two constants, if the folder has one. -/
def foldImm (op : Op) (av bv : Word) : Option Word :=
  match op with
  | .Add => some (av + bv)
  | .Sub => some (av - bv)
  | .Mul => some (av * bv)
  | .Div => if bv = 0#32 then none else some (av.sdiv bv)
  | .Mod => if bv = 0#32 then none else some (av.srem bv)
  | .Lt => some (Word.ofBool (av.slt bv))
  | .Gt => some (Word.ofBool (bv.slt av))
  | .Le => some (Word.ofBool (!bv.slt av))
  | .Ge => some (Word.ofBool (!av.slt bv))
  | .Eq => some (Word.ofBool (av == bv))
  | .Ne => some (Word.ofBool (av != bv))
  | .Neg | .Not | .Mv | .LoadGlobal | .StoreGlobal | .Call => none

/-- The instruction as a copy of an operand. -/
def Inst.toMv (inst : Inst) (v : Val) : Inst := { inst with op := .Mv, a := v, b := .imm 0 }

/-- The instruction as the negation of an operand. -/
def Inst.toNeg (inst : Inst) (v : Val) : Inst := { inst with op := .Neg, a := v, b := .imm 0 }

/-- **The algebraic identities**, the first one that applies. -/
def foldAlgebra (inst : Inst) : Option Inst :=
  match inst.op with
  | .Add =>
    if inst.a = .imm 0 then some (inst.toMv inst.b)
    else if inst.b = .imm 0 then some (inst.toMv inst.a)
    else none
  | .Sub =>
    if inst.b = .imm 0 then some (inst.toMv inst.a)
    else if inst.a = .imm 0 then some (inst.toNeg inst.b)
    else if sameReg inst.a inst.b then some (inst.toMv (.imm 0))
    else none
  | .Mul =>
    if inst.a = .imm 0 ∨ inst.b = .imm 0 then some (inst.toMv (.imm 0))
    else if inst.a = .imm 1 then some (inst.toMv inst.b)
    else if inst.b = .imm 1 then some (inst.toMv inst.a)
    else if inst.a = .imm (-1) then some (inst.toNeg inst.b)
    else if inst.b = .imm (-1) then some (inst.toNeg inst.a)
    else none
  | .Div =>
    if inst.b = .imm 1 then some (inst.toMv inst.a)
    else if inst.b = .imm (-1) then some (inst.toNeg inst.a)
    else if sameReg inst.a inst.b then some (inst.toMv (.imm 1))
    else none
  | .Mod =>
    if inst.b = .imm 1 ∨ inst.b = .imm (-1) then some (inst.toMv (.imm 0))
    else if sameReg inst.a inst.b then some (inst.toMv (.imm 0))
    else none
  | .Lt | .Gt | .Ne => if sameReg inst.a inst.b then some (inst.toMv (.imm 0)) else none
  | .Le | .Ge | .Eq => if sameReg inst.a inst.b then some (inst.toMv (.imm 1)) else none
  | .Neg | .Not | .Mv | .LoadGlobal | .StoreGlobal | .Call => none

/-- **What an instruction is rewritten to**, if it is. -/
def foldInst (inst : Inst) : Option Inst :=
  if isBinary inst.op then
    match inst.a, inst.b with
    | .imm av, .imm bv =>
      match foldImm inst.op av bv with
      | some res => some (inst.toMv (.imm res))
      | none => foldAlgebra inst
    | _, _ => foldAlgebra inst
  else
    match inst.op, inst.a with
    | .Neg, .imm av => some (inst.toMv (.imm (-av)))
    | .Not, .imm av => some (inst.toMv (.imm (if av = 0#32 then 1 else 0)))
    | _, _ => none

/-- Rewrite the instructions of a function one by one. -/
def IRFunc.mapInsts (F : IRFunc) (f : Inst → Inst) : IRFunc :=
  { F with blocks := F.blocks.map fun bb => { bb with insts := bb.insts.map f } }

/-- **The pass**, with whether it rewrote anything. -/
def constFold (F : IRFunc) : IRFunc × Bool :=
  (F.mapInsts fun inst => (foldInst inst).getD inst, F.insts.any fun inst => (foldInst inst).isSome)

/-! ## One instruction -/

/-- **The folder agrees with the analysis of the source** on two constants. -/
theorem foldImm_eq_evalBin (op : BinOp) (a b : Word) : foldImm (mapBin op) a b = evalBin op a b := by
  have hmin : BitVec.sdiv Word.intMin (-1) = Word.intMin := by decide
  have hmin' : BitVec.srem Word.intMin (-1) = 0#32 := by decide
  cases op with
  | Div | Mod =>
    simp only [mapBin, foldImm, evalBin]
    by_cases hb : b = 0#32
    · rw [if_pos hb, if_pos hb]
    · rw [if_neg hb, if_neg hb]
      split
      · rename_i hab
        obtain ⟨rfl, rfl⟩ := hab
        first | rw [hmin] | rw [hmin']
      · rfl
  | _ => rfl

/-- A division divides by something. -/
def Inst.DivisorNonzero (inst : Inst) (R : Regs) : Prop :=
  inst.op = .Div ∨ inst.op = .Mod → inst.b.eval R ≠ 0#32

/-- An operation on two constants has the value it folds to. -/
theorem eval_of_foldImm {op : Op} {av bv res : Word} (h : foldImm op av bv = some res) :
    op.eval av bv = res := by
  cases op with
  | Div | Mod =>
    simp only [foldImm] at h
    split at h
    · cases h
    · rename_i hb
      cases h
      simp only [Op.eval, Word.div, Word.rem, if_neg hb]
  | _ => first | exact Option.some.inj h | cases h

section Exec

variable {inst inst' : Inst} {call : Callee} {R : Regs} {G : Globals}

/-- A rewrite to a copy of an operand with the right value. -/
theorem Inst.exec_toMv {v : Val} {w : Word} (h : v.eval R = w) :
    (inst.toMv v).exec call R G = .ok (R.write inst.dst w, G) := by
  rw [← h]
  rfl

theorem Inst.exec_toNeg {v : Val} {w : Word} (h : -v.eval R = w) :
    (inst.toNeg v).exec call R G = .ok (R.write inst.dst w, G) := by
  rw [← h]
  rfl

theorem sameReg_eval {a b : Val} (h : sameReg a b = true) : a.eval R = b.eval R := by
  unfold sameReg at h
  rw [Bool.and_eq_true] at h
  rw [eq_of_beq h.2]

theorem Word.neg_one_mul (w : Word) : (-1 : Word) * w = -w := by
  rw [show (-1 : Word) = -1#32 from rfl, BitVec.neg_mul, BitVec.one_mul]

theorem Word.sdiv_neg_one (w : Word) : w.sdiv (-1) = -w := by
  rw [show (-1 : Word) = -1#32 from rfl, BitVec.sdiv_neg (by decide), BitVec.sdiv_one]

theorem Word.srem_neg_one (w : Word) : w.srem (-1) = 0#32 := by
  apply BitVec.eq_of_toInt_eq
  rw [BitVec.toInt_srem, show (-1 : Word).toInt = -1 by decide, Int.tmod_neg, Int.tmod_one]
  rfl

/-- **An identity gives the value of the instruction.** -/
theorem foldAlgebra_exec (h : foldAlgebra inst = some inst') (hdiv : inst.DivisorNonzero R) :
    inst'.exec call R G =
      .ok (R.write inst.dst (inst.op.eval (inst.a.eval R) (inst.b.eval R)), G) := by
  unfold foldAlgebra at h
  unfold Inst.DivisorNonzero at hdiv
  cases hop : inst.op with
  | Add =>
    simp only [hop] at h
    split at h
    · rename_i ha
      cases h
      exact Inst.exec_toMv (by simp [ha, Op.eval])
    · split at h
      · rename_i hb
        cases h
        exact Inst.exec_toMv (by simp [hb, Op.eval])
      · cases h
  | Sub =>
    simp only [hop] at h
    split at h
    · rename_i hb
      cases h
      exact Inst.exec_toMv (by simp [hb, Op.eval])
    · split at h
      · rename_i ha
        cases h
        exact Inst.exec_toNeg (by simp [ha, Op.eval])
      · split at h
        · rename_i hsame
          cases h
          exact Inst.exec_toMv (by simp [sameReg_eval (R := R) hsame, Op.eval])
        · cases h
  | Mul =>
    simp only [hop] at h
    split at h
    · rename_i hab
      cases h
      refine Inst.exec_toMv ?_
      rcases hab with ha | hb
      · simp [ha, Op.eval]
      · simp [hb, Op.eval]
    · split at h
      · rename_i ha
        cases h
        exact Inst.exec_toMv (by simp [ha, Op.eval])
      · split at h
        · rename_i hb
          cases h
          exact Inst.exec_toMv (by simp [hb, Op.eval])
        · split at h
          · rename_i ha
            cases h
            rw [ha]
            exact Inst.exec_toNeg (Word.neg_one_mul _).symm
          · split at h
            · rename_i hb
              cases h
              rw [hb]
              exact Inst.exec_toNeg ((BitVec.mul_comm _ _).trans (Word.neg_one_mul _)).symm
            · cases h
  | Div =>
    have hb := hdiv (.inl hop)
    simp only [hop] at h
    split at h
    · rename_i hb
      cases h
      exact Inst.exec_toMv (by simp [hb, Op.eval, Word.div, BitVec.sdiv_one])
    · split at h
      · rename_i hb
        cases h
        rw [hb]
        refine Inst.exec_toNeg ?_
        rw [← Word.sdiv_neg_one]
        rfl
      · split at h
        · rename_i hsame
          cases h
          refine Inst.exec_toMv ?_
          rw [sameReg_eval (R := R) hsame]
          simp [Op.eval, Word.div, hb, BitVec.sdiv_self]
        · cases h
  | Mod =>
    have hb := hdiv (.inr hop)
    simp only [hop] at h
    split at h
    · rename_i hone
      cases h
      refine Inst.exec_toMv ?_
      rcases hone with hb | hb
      · simp [hb, Op.eval, Word.rem]
      · rw [hb]
        exact (Word.srem_neg_one _).symm
    · split at h
      · rename_i hsame
        cases h
        refine Inst.exec_toMv ?_
        rw [sameReg_eval (R := R) hsame]
        simp [Op.eval, Word.rem, hb]
      · cases h
  | Lt | Gt | Ne | Le | Ge | Eq =>
    simp only [hop] at h
    split at h
    · rename_i hsame
      cases h
      refine Inst.exec_toMv ?_
      rw [sameReg_eval (R := R) hsame]
      simp [Op.eval, BitVec.slt]
    · cases h
  | _ =>
    simp only [hop] at h
    cases h

/-- **A rewritten instruction does what it did**, if it does not divide by zero. -/
theorem foldInst_exec (h : foldInst inst = some inst') (hdiv : inst.DivisorNonzero R) :
    inst'.exec call R G = inst.exec call R G := by
  unfold foldInst at h
  split at h
  · rename_i hbin
    rw [Inst.exec_binary hbin]
    split at h
    · rename_i av bv ha hb
      split at h
      · rename_i res hres
        cases h
        refine Inst.exec_toMv ?_
        rw [ha, hb]
        exact (eval_of_foldImm hres).symm
      · exact foldAlgebra_exec h hdiv
    · exact foldAlgebra_exec h hdiv
  · split at h
    · rename_i av hop ha
      cases h
      unfold Inst.exec Inst.toMv
      rw [hop, ha]
      rfl
    · rename_i av hop ha
      cases h
      unfold Inst.exec Inst.toMv
      rw [hop, ha]
      by_cases hav : av = 0#32 <;> simp [hav, Word.ofBool]
    · cases h

end Exec

/-- **What a rewrite leaves alone**: the destination and the hints. -/
theorem foldInst_fields {inst inst' : Inst} (h : foldInst inst = some inst') :
    ∃ v, inst' = inst.toMv v ∨ inst' = inst.toNeg v := by
  have halgebra : ∀ {inst'}, foldAlgebra inst = some inst' →
      ∃ v, inst' = inst.toMv v ∨ inst' = inst.toNeg v := by
    intro inst' h
    unfold foldAlgebra at h
    split at h <;> (repeat' split at h) <;> first
      | (cases h; exact ⟨_, .inl rfl⟩)
      | (cases h; exact ⟨_, .inr rfl⟩)
      | cases h
  unfold foldInst at h
  split at h
  · split at h
    · split at h
      · cases h
        exact ⟨_, .inl rfl⟩
      · exact halgebra h
    · exact halgebra h
  · split at h
    · cases h
      exact ⟨_, .inl rfl⟩
    · cases h
      exact ⟨_, .inl rfl⟩
    · cases h

/-- Only what computes a value is rewritten. -/
theorem foldInst_op {inst : Inst} (h : inst.op = .Call ∨ inst.op = .StoreGlobal) :
    foldInst inst = none := by
  unfold foldInst
  rcases h with h | h <;> rw [h] <;> rfl

theorem foldInst_event {inst inst' : Inst} (h : foldInst inst = some inst') (R : Regs) :
    inst'.event R = inst.event R := by
  have hop : inst.op ≠ .Call ∧ inst.op ≠ .StoreGlobal := by
    constructor <;> intro hop
    · rw [foldInst_op (.inl hop)] at h
      cases h
    · rw [foldInst_op (.inr hop)] at h
      cases h
  have hnone : inst.event R = none := by
    unfold Inst.event
    split
    · exact absurd ‹_› hop.2
    · exact absurd ‹_› hop.1
    · rfl
  rw [hnone]
  obtain ⟨v, rfl | rfl⟩ := foldInst_fields h <;> rfl

/-! ## A run -/

section Run

variable {F : IRFunc} {f : Inst → Inst} {call : Callee} {junk : Regs} {args : List Word}
  {G : Globals}

theorem IRFunc.blockAt_mapInsts (b : Nat) :
    (F.mapInsts f).blockAt b = { F.blockAt b with insts := (F.blockAt b).insts.map f } :=
  IRFunc.blockAt_map rfl b

/-- A point of the function and the same point after the rewriting. -/
def Rewritten (f : Inst → Inst) (c c' : Config) : Prop := c' = { c with rest := c.rest.map f }

theorem IRFunc.execTerm_mapInsts {bb : BasicBlock} (R : Regs) :
    StepsAgree (Rewritten f) (F.execTerm bb R G)
      ((F.mapInsts f).execTerm { bb with insts := bb.insts.map f } R G) := by
  have henter : ∀ b, StepsAgree (Rewritten f) (F.enter b R G) ((F.mapInsts f).enter b R G) := by
    intro b
    unfold IRFunc.enter IRFunc.mapInsts
    rw [List.getElem?_map]
    cases F.blocks[b]? with
    | none => trivial
    | some bb => rfl
  unfold IRFunc.execTerm
  cases bb.term with
  | None => trivial
  | Jmp => exact henter _
  | Br => exact henter _
  | Ret => rfl

/-- **Rewriting instructions one by one** changes nothing in a run in which every rewritten
instruction does what it did. -/
theorem IRFunc.mapInsts_sameBehaviour
    (h : ∀ done c, F.Ran call (F.entry junk args G) done c → ∀ inst ∈ c.rest.head?,
      (f inst).exec call c.regs c.globals = inst.exec call c.regs c.globals ∧
        (f inst).event c.regs = inst.event c.regs) :
    SameBehaviour F (F.mapInsts f) call junk args G := by
  let I : Config → Config → Prop := fun c c' =>
    Rewritten f c c' ∧ ∃ done, F.Ran call (F.entry junk args G) done c
  have hentry : I (F.entry junk args G) ((F.mapInsts f).entry junk args G) := by
    refine ⟨?_, [], .start⟩
    show (F.mapInsts f).start 0 _ G = _
    rw [IRFunc.start, IRFunc.blockAt_mapInsts]
    rfl
  have hlock : Lockstep (F.step call) ((F.mapInsts f).step call) I := by
    rintro c _ ⟨rfl, done, hran⟩
    have hstep : StepsAgree (Rewritten f) (F.step call c)
        ((F.mapInsts f).step call { c with rest := c.rest.map f }) := by
      have hinst := h done c hran
      unfold IRFunc.step
      cases hrest : c.rest with
      | nil =>
        have hblocks : (F.mapInsts f).blocks[c.block]? =
            F.blocks[c.block]?.map fun bb => { bb with insts := bb.insts.map f } :=
          List.getElem?_map ..
        simp only [List.map_nil, hblocks]
        cases F.blocks[c.block]? with
        | none => trivial
        | some bb => exact IRFunc.execTerm_mapInsts c.regs
      | cons inst rest =>
        simp only [List.map_cons, (hinst inst (by rw [hrest]; rfl)).1]
        exact StepsAgree.bind fun _ _ => rfl
    exact hstep.imp fun c' _ hc' hsame => ⟨hsame, _, .step hran hc'⟩
  have hevent : ∀ c c', I c c' → c.event = c'.event := by
    rintro c _ ⟨rfl, done, hran⟩
    have hinst := h done c hran
    unfold Config.event
    cases hrest : c.rest with
    | nil => rfl
    | cons inst rest => exact (hinst inst (by rw [hrest]; rfl)).2.symm
  exact .of_lockstep rfl (List.length_map _) hlock hevent hentry

end Run

/-- **A run without a division by zero.** -/
def IRFunc.DividesByNonzero (F : IRFunc) (call : Callee) (c₀ : Config) : Prop :=
  ∀ done c, F.Ran call c₀ done c → ∀ inst ∈ c.rest.head?, inst.DivisorNonzero c.regs

/-- **Constant folding and algebraic simplification preserve meaning.** A rewritten instruction
writes the same value to the same destination, in every state in which it does not divide by zero.
On constants it is an `Mv` of what the analysis of the source computes, if that computes anything.
And a run without a division by zero returns the same and makes the same calls and stores. -/
theorem constFold_correct (F : IRFunc) :
    (∀ inst inst', foldInst inst = some inst' → inst'.dst = inst.dst ∧
      ∀ R, inst.DivisorNonzero R → ∀ call G, inst'.exec call R G = inst.exec call R G) ∧
      (∀ op a b inst, inst.op = mapBin op → inst.a = .imm a → inst.b = .imm b →
        foldInst inst = (evalBin op a b).map fun v => inst.toMv (.imm v)) ∧
      (∀ a inst, inst.a = .imm a →
        (inst.op = .Neg → foldInst inst = some (inst.toMv (.imm (evalUn .Neg a)))) ∧
        (inst.op = .Not → foldInst inst = some (inst.toMv (.imm (evalUn .Not a))))) ∧
      ∀ call junk args G, F.DividesByNonzero call (F.entry junk args G) →
        SameBehaviour F (constFold F).1 call junk args G := by
  refine ⟨?_, ?_, ?_, ?_⟩
  · intro inst inst' h
    refine ⟨?_, fun R hdiv call G => foldInst_exec h hdiv⟩
    obtain ⟨v, rfl | rfl⟩ := foldInst_fields h <;> rfl
  · intro op a b inst hop ha hb
    have hbin : isBinary inst.op = true := by
      rw [hop]
      cases op <;> rfl
    unfold foldInst
    simp only [hbin, if_true, ha, hb]
    rw [hop, foldImm_eq_evalBin]
    cases hv : evalBin op a b with
    | some v => rfl
    | none =>
      cases op with
      | Div | Mod =>
        have hzero : b = 0#32 := by
          by_contra hne
          simp only [evalBin, if_neg hne] at hv
          split at hv <;> cases hv
        subst hzero
        simp [foldAlgebra, hop, mapBin, ha, hb, sameReg, Val.isReg]
      | _ => cases hv
  · intro a inst ha
    constructor <;> intro hop <;> unfold foldInst <;> rw [hop, ha] <;> rfl
  · intro call junk args G hdiv
    refine IRFunc.mapInsts_sameBehaviour fun done c hran inst hi => ?_
    cases hf : foldInst inst with
    | none => exact ⟨rfl, rfl⟩
    | some inst' => exact ⟨foldInst_exec hf (hdiv done c hran inst hi), foldInst_event hf c.regs⟩

/-! ## A function that is folded -/

/-- `int f(int x) { return x / -1 + (7 - 7); }` -/
def foldableFunc : IRFunc where
  numParams := 1
  paramRegs := [0]
  numVregs := 4
  blocks := [{
    insts := [{ op := .Div, dst := some 1, a := .reg 0, b := .imm (-1) },
      { op := .Sub, dst := some 2, a := .imm 7, b := .imm 7 },
      { op := .Add, dst := some 3, a := .reg 1, b := .reg 2 }]
    term := .Ret
    retHasVal := true
    retVal := .reg 3 }]

/-- The folded function returns what the function returns. -/
theorem constFold_foldableFunc :
    (constFold foldableFunc).1.run (fun _ => .stuck) (fun _ => 0) 4 [Word.intMin] (fun _ => 0) =
      foldableFunc.run (fun _ => .stuck) (fun _ => 0) 4 [Word.intMin] fun _ => 0 := by
  refine ((constFold_correct foldableFunc).2.2.2 (fun _ => .stuck) (fun _ => 0) [Word.intMin]
    (fun _ => 0) ?_).run 4
  intro done c hran inst hi
  have hmem := hran.mem_insts hi
  simp only [foldableFunc, IRFunc.insts, List.flatMap_cons, List.flatMap_nil, List.append_nil,
    List.mem_cons, List.not_mem_nil, or_false] at hmem
  rcases hmem with rfl | rfl | rfl
  · exact fun _ => (by decide : (-1 : Word) ≠ 0#32)
  · exact fun h => by simp at h
  · exact fun h => by simp at h

end ToyC
