import ToyC.IRGenGrowth
import ToyC.IRSemantics

/-!
# Running code while it is generated

A finished function `Covers` an earlier state of the generator when it contains all
that was written by then. The execution of the function can then be followed from
the generator's point of view: `here` is the point of the execution at which
everything written so far in the current block has been executed, and each thing the
generator writes next takes the execution one step further.
-/

namespace ToyC

namespace IRGen

/-- **The function contains what is written so far**: every block begins with what was
written to it, and the blocks that were closed are as they were. -/
structure Covers (F : IRFunc) (g : IRGen) : Prop where
  length_le : g.blocks.length ≤ F.blocks.length
  insts : ∀ b < g.blocks.length, (g.blockAt b).insts <+: (F.blockAt b).insts
  closed : ∀ b < g.blocks.length, (g.blockAt b).term ≠ .None →
    ∃ preds, F.blockAt b = { g.blockAt b with preds }

/-- What is covered later was covered before. -/
theorem Covers.of_grows {F : IRFunc} {k : Nat} {g g' : IRGen} (hc : Covers F g') (hg : g.WF)
    (h : Grows k g g') : Covers F g where
  length_le := Nat.le_trans h.length_le hc.length_le
  insts b hb := by
    have hb' := Nat.lt_of_lt_of_le hb h.length_le
    by_cases hcur : b = g.curBB
    · subst hcur
      exact h.current.trans (hc.insts _ hb')
    · rw [← h.other b hb (.inl hcur)]
      exact hc.insts b hb'
  closed b hb hterm := by
    have hsame : b ≠ g.curBB ∨ g.isSealed = true := by
      by_cases hcur : b = g.curBB
      · subst hcur
        exact .inr (Bool.of_not_eq_false fun hs => hterm (hg.opened hs))
      · exact .inl hcur
    rw [← h.other b hb hsame] at hterm ⊢
    exact hc.closed b (Nat.lt_of_lt_of_le hb h.length_le) hterm

theorem Covers.startBlock {F : IRFunc} {g : IRGen} {b : Nat} (h : Covers F (g.startBlock b)) :
    Covers F g := ⟨h.length_le, h.insts, h.closed⟩

theorem Covers.popLoop {F : IRFunc} {g : IRGen} (h : Covers F g.popLoop) : Covers F g :=
  ⟨h.length_le, h.insts, h.closed⟩

/-- **The point of the execution where what is written so far has been executed.** -/
def here (F : IRFunc) (g : IRGen) (R : Regs) (G : Globals) : Config :=
  ⟨g.curBB, (F.blockAt g.curBB).insts.drop (g.blockAt g.curBB).insts.length, R, G⟩

/-- At the beginning of a reserved block. -/
theorem here_startBlock {g : IRGen} {b : Nat} (hb : g.Reserved b) (F : IRFunc) (R : Regs)
    (G : Globals) : (g.startBlock b).here F R G = F.start b R G := by
  show Config.mk b ((F.blockAt b).insts.drop (g.blockAt b).insts.length) R G = _
  rw [hb.empty]
  rfl

/-- What is left of the current block. -/
def rest (F : IRFunc) (g : IRGen) : List Inst :=
  (F.blockAt g.curBB).insts.drop (g.blockAt g.curBB).insts.length

section Rest

variable {F : IRFunc} {g : IRGen}

/-- An open block is written on. -/
theorem emit_curBB (hopen : g.isSealed = false) (inst : Inst) : (g.emit inst).curBB = g.curBB := by
  rw [emit, ensureOpen_of_not_sealed hopen]
  rfl

/-- **An instruction comes next** once it is written. -/
theorem rest_emit (hg : g.WF) (hopen : g.isSealed = false) {inst : Inst}
    (hc : Covers F (g.emit inst)) : g.rest F = inst :: (g.emit inst).rest F := by
  have hemit : g.emit inst = g.modifyCur fun bb => { bb with insts := bb.insts ++ [inst] } := by
    rw [emit, ensureOpen_of_not_sealed hopen]
  have hblock : (g.emit inst).blockAt g.curBB =
      { g.blockAt g.curBB with insts := (g.blockAt g.curBB).insts ++ [inst] } := by
    rw [hemit, modifyCur_blockAt_cur hg]
  have hlt : g.curBB < (g.emit inst).blocks.length := by
    rw [hemit]
    simpa [modifyCur] using hg.cur_lt
  obtain ⟨rest, hrest⟩ := hc.insts _ hlt
  rw [hblock] at hrest
  rw [IRGen.rest, IRGen.rest, emit_curBB hopen, hblock, ← hrest]
  simp

/-- **Nothing comes next** once the block has its terminator. -/
theorem rest_close (hg : g.WF) (hopen : g.isSealed = false) {f : BasicBlock → BasicBlock}
    (hinsts : ∀ bb, (f bb).insts = bb.insts) (hterm : (f (g.blockAt g.curBB)).term ≠ .None)
    (hc : Covers F (g.close f)) :
    g.rest F = [] ∧ g.curBB < F.blocks.length ∧
      ∃ preds, F.blockAt g.curBB = { f (g.blockAt g.curBB) with preds } := by
  have hclose : ∀ b, (g.close f).blockAt b = (g.modifyCur f).blockAt b := by
    intro b
    rw [close, ensureOpen_of_not_sealed hopen]
    rfl
  have hlt : g.curBB < (g.close f).blocks.length := by
    rw [close, ensureOpen_of_not_sealed hopen]
    simpa [modifyCur] using hg.cur_lt
  obtain ⟨preds, hpreds⟩ := hc.closed g.curBB hlt (by
    rw [hclose, modifyCur_blockAt_cur hg]
    exact hterm)
  rw [hclose, modifyCur_blockAt_cur hg] at hpreds
  refine ⟨?_, Nat.lt_of_lt_of_le hlt hc.length_le, preds, hpreds⟩
  rw [IRGen.rest, hpreds]
  simp [hinsts]

end Rest

section Steps

variable {F : IRFunc} (call : Callee) {g : IRGen}

/-- **An instruction is executed** once it is written. -/
theorem step_emit (hg : g.WF) (hopen : g.isSealed = false) {inst : Inst}
    (hc : Covers F (g.emit inst)) (R : Regs) (G : Globals) :
    F.step call (g.here F R G) =
      inst.exec call R G >>= fun s => .ok (.inl ((g.emit inst).here F s.1 s.2)) := by
  have hhere : g.here F R G = ⟨g.curBB, inst :: (g.emit inst).rest F, R, G⟩ :=
    congrArg (Config.mk g.curBB · R G) (rest_emit hg hopen hc)
  have hhere' : ∀ R G, (g.emit inst).here F R G = ⟨g.curBB, (g.emit inst).rest F, R, G⟩ :=
    fun R G => congrArg (Config.mk · _ R G) (emit_curBB hopen inst)
  simp only [hhere, hhere']
  rfl

/-- **A terminator is executed** once it is written. -/
theorem step_close (hg : g.WF) (hopen : g.isSealed = false) {f : BasicBlock → BasicBlock}
    (hinsts : ∀ bb, (f bb).insts = bb.insts) (hterm : (f (g.blockAt g.curBB)).term ≠ .None)
    (hc : Covers F (g.close f)) (R : Regs) (G : Globals) :
    F.step call (g.here F R G) = F.execTerm (f (g.blockAt g.curBB)) R G := by
  obtain ⟨hrest, hlt, preds, hpreds⟩ := rest_close hg hopen hinsts hterm hc
  have hhere : g.here F R G = ⟨g.curBB, [], R, G⟩ := congrArg (Config.mk g.curBB · R G) hrest
  rw [hhere]
  simp only [IRFunc.step, IRFunc.getElem?_blocks hlt, hpreds]
  rfl

/-- A jump goes to its target. -/
theorem step_termJmp (hg : g.WF) (hopen : g.isSealed = false) {t : Nat}
    (hc : Covers F (g.termJmp t)) (ht : t < F.blocks.length) (R : Regs) (G : Globals) :
    F.step call (g.here F R G) = .ok (.inl (F.start t R G)) := by
  have h := step_close call hg hopen
    (f := fun bb => { bb with term := .Jmp, succ0 := t }) (fun _ => rfl) (by simp) hc R G
  rw [h]
  exact IRFunc.enter_eq ht R G

/-- A branch goes where its condition says. -/
theorem step_termBr (hg : g.WF) (hopen : g.isSealed = false) {v : Val} {t f : Nat}
    (hc : Covers F (g.termBr v t f)) (ht : t < F.blocks.length) (hf : f < F.blocks.length)
    (R : Regs) (G : Globals) :
    F.step call (g.here F R G) =
      .ok (.inl (F.start (if Word.truthy (v.eval R) then t else f) R G)) := by
  have h := step_close call hg hopen
    (f := fun bb => { bb with term := .Br, cond := v, succ0 := t, succ1 := f })
    (fun _ => rfl) (by simp) hc R G
  rw [h]
  refine IRFunc.enter_eq ?_ R G
  show (if Word.truthy (v.eval R) then t else f) < _
  split
  · exact ht
  · exact hf

/-- A return ends the execution. -/
theorem step_termRet (hg : g.WF) (hopen : g.isSealed = false) {hasVal : Bool} {v : Val}
    (hc : Covers F (g.termRet hasVal v)) (R : Regs) (G : Globals) :
    F.step call (g.here F R G) =
      .ok (.inr (if hasVal then some (v.eval R) else none, G)) :=
  step_close call hg hopen (f := fun bb => { bb with term := .Ret, retHasVal := hasVal, retVal := v })
    (fun _ => rfl) (by simp) hc R G

end Steps

end IRGen

end ToyC
