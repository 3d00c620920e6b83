import ToyC.IRGenChecked
import ToyC.SemaScope

/-!
# What the generator does to its blocks

Lowering a tree only adds: it writes at the end of the current block until that
is sealed, and from then on in blocks that did not exist before (`Grows`). Blocks
that were reserved as the targets of later code stay empty meanwhile
(`Grows.reserved`). So whatever the generator has written at some point is there in
the finished function, and a reserved block holds exactly the code that is
lowered into it afterwards.
-/

namespace ToyC

namespace IRGen

/-- **A generator in order**: it writes in a block that exists, and that is open unless
marked as sealed; the variables have vregs of their own, and the loops have targets. -/
structure WF (g : IRGen) : Prop where
  cur_lt : g.curBB < g.blocks.length
  opened : g.isSealed = false → (g.blockAt g.curBB).term = .None
  irId_lt : ∀ id r, g.irId.lookup id = some r → r < g.nextVreg
  irId_inj : ∀ id id' r, g.irId.lookup id = some r → g.irId.lookup id' = some r → id = id'
  loops_lt : ∀ l ∈ g.loops, l.continueBB < g.blocks.length ∧ l.breakBB < g.blocks.length

/-- A block waiting for its code. -/
structure Reserved (g : IRGen) (b : Nat) : Prop where
  lt : b < g.blocks.length
  empty : g.blockAt b = { id := b }
  ne_cur : g.curBB ≠ b

/-- **Lowering some code**: blocks other than the current one stay as they are, the
current one is written at its end, and what is new lies behind. The symbols up to
`k` keep their vregs. -/
structure Grows (k : Nat) (g g' : IRGen) : Prop where
  length_le : g.blocks.length ≤ g'.blocks.length
  other : ∀ b < g.blocks.length, b ≠ g.curBB ∨ g.isSealed = true →
    g'.blockAt b = g.blockAt b
  current : (g.blockAt g.curBB).insts <+: (g'.blockAt g.curBB).insts
  curBB : g'.curBB = g.curBB ∧ (g.isSealed = true → g'.isSealed = true) ∨
    g.blocks.length ≤ g'.curBB
  nextVreg_le : g.nextVreg ≤ g'.nextVreg
  loops : g'.loops = g.loops
  returnsVoid : g'.curReturnsVoid = g.curReturnsVoid
  irId : ∀ id < k, g'.irId.lookup id = g.irId.lookup id
  wf : g'.WF

namespace Grows

variable {k : Nat} {g g' g₁ g₂ g₃ : IRGen}

theorem refl (hg : g.WF) : Grows k g g :=
  ⟨Nat.le_refl _, fun _ _ _ => rfl, List.prefix_rfl, .inl ⟨rfl, id⟩, Nat.le_refl _, rfl, rfl,
    fun _ _ => rfl, hg⟩

theorem trans (hg : g₁.WF) (h₁ : Grows k g₁ g₂) (h₂ : Grows k g₂ g₃) : Grows k g₁ g₃ where
  length_le := Nat.le_trans h₁.length_le h₂.length_le
  other b hb hne := by
    have hb' : b ≠ g₂.curBB ∨ g₂.isSealed = true := by
      rcases h₁.curBB with ⟨hcur, hsealed⟩ | hcur
      · exact hne.imp (by rw [hcur]; exact id) hsealed
      · exact .inl (Nat.ne_of_lt (Nat.lt_of_lt_of_le hb hcur))
    rw [h₂.other b (Nat.lt_of_lt_of_le hb h₁.length_le) hb', h₁.other b hb hne]
  current := by
    refine h₁.current.trans ?_
    rcases h₁.curBB with ⟨hcur, -⟩ | hcur
    · rw [← hcur]
      exact h₂.current
    · have hother := h₂.other g₁.curBB (Nat.lt_of_lt_of_le hg.cur_lt h₁.length_le)
        (.inl (Nat.ne_of_lt (Nat.lt_of_lt_of_le hg.cur_lt hcur)))
      exact hother.symm ▸ List.prefix_rfl
  curBB := by
    rcases h₁.curBB with ⟨hcur, hs⟩ | hcur
    · rcases h₂.curBB with ⟨hcur', hs'⟩ | hcur'
      · exact .inl ⟨hcur'.trans hcur, fun h => hs' (hs h)⟩
      · exact .inr (Nat.le_trans h₁.length_le hcur')
    · rcases h₂.curBB with ⟨hcur', -⟩ | hcur'
      · exact .inr (hcur' ▸ hcur)
      · exact .inr (Nat.le_trans h₁.length_le hcur')
  nextVreg_le := Nat.le_trans h₁.nextVreg_le h₂.nextVreg_le
  loops := h₂.loops.trans h₁.loops
  returnsVoid := h₂.returnsVoid.trans h₁.returnsVoid
  irId id hid := (h₂.irId id hid).trans (h₁.irId id hid)
  wf := h₂.wf

/-- A reserved block waits through it. -/
theorem reserved (h : Grows k g g') {b : Nat} (hb : g.Reserved b) : g'.Reserved b := by
  refine ⟨Nat.lt_of_lt_of_le hb.lt h.length_le,
    (h.other b hb.lt (.inl hb.ne_cur.symm)).trans hb.empty, ?_⟩
  rcases h.curBB with ⟨hcur, -⟩ | hcur
  · rw [hcur]
    exact hb.ne_cur
  · exact (Nat.ne_of_lt (Nat.lt_of_lt_of_le hb.lt hcur)).symm

end Grows

/-! ## Fresh registers and blocks -/

theorem newVreg_grows {k : Nat} {g : IRGen} (hg : g.WF) : Grows k g g.newVreg.2 :=
  ⟨Nat.le_refl _, fun _ _ _ => rfl, List.prefix_rfl, .inl ⟨rfl, id⟩, Nat.le_succ _, rfl, rfl,
    fun _ _ => rfl, ⟨hg.cur_lt, hg.opened,
      fun id r h => Nat.lt_succ_of_lt (hg.irId_lt id r h), hg.irId_inj, hg.loops_lt⟩⟩

theorem newBlock_blockAt_of_lt {g : IRGen} {b : Nat} (hb : b < g.blocks.length) :
    g.newBlock.2.blockAt b = g.blockAt b := by
  rw [blockAt, blockAt, newBlock, List.getD_eq_getElem?_getD, List.getD_eq_getElem?_getD,
    List.getElem?_append_left hb]

theorem newBlock_blockAt_new (g : IRGen) :
    g.newBlock.2.blockAt g.blocks.length = { id := g.blocks.length } := by
  simp [blockAt, newBlock]

theorem newBlock_fst (g : IRGen) : g.newBlock.1 = g.blocks.length := rfl

theorem newBlock_length (g : IRGen) : g.newBlock.2.blocks.length = g.blocks.length + 1 := by
  simp [newBlock]

/-- The number of the next block, two blocks on. -/
theorem newBlock_newBlock_length (g : IRGen) :
    g.newBlock.2.newBlock.2.blocks.length = g.blocks.length + 2 := by
  rw [newBlock_length, newBlock_length]

theorem newBlock_grows {k : Nat} {g : IRGen} (hg : g.WF) : Grows k g g.newBlock.2 where
  length_le := by rw [newBlock_length]; exact Nat.le_succ _
  other b hb _ := newBlock_blockAt_of_lt hb
  current := (newBlock_blockAt_of_lt hg.cur_lt).symm ▸ List.prefix_rfl
  curBB := .inl ⟨rfl, id⟩
  nextVreg_le := Nat.le_refl _
  loops := rfl
  returnsVoid := rfl
  irId _ _ := rfl
  wf := by
    refine ⟨?_, fun h => ?_, hg.irId_lt, hg.irId_inj, fun l hl => ?_⟩
    · rw [newBlock_length]
      exact Nat.lt_succ_of_lt hg.cur_lt
    · show (g.newBlock.2.blockAt g.curBB).term = .None
      rw [newBlock_blockAt_of_lt hg.cur_lt]
      exact hg.opened h
    · rw [newBlock_length]
      exact (hg.loops_lt l hl).imp Nat.lt_succ_of_lt Nat.lt_succ_of_lt

theorem newBlock_reserved {g : IRGen} (hg : g.WF) : g.newBlock.2.Reserved g.newBlock.1 where
  lt := by rw [newBlock_length]; exact Nat.lt_succ_self _
  empty := newBlock_blockAt_new g
  ne_cur := Nat.ne_of_lt hg.cur_lt

/-- Two fresh blocks. -/
theorem twoBlocks {k : Nat} {g : IRGen} (hg : g.WF) :
    Grows k g g.newBlock.2.newBlock.2 ∧
      g.newBlock.2.newBlock.2.Reserved g.blocks.length ∧
      g.newBlock.2.newBlock.2.Reserved (g.blocks.length + 1) := by
  have h₁ := newBlock_grows (k := k) hg
  have h₂ := newBlock_grows (k := k) h₁.wf
  have hr := newBlock_reserved h₁.wf
  rw [show g.newBlock.2.newBlock.1 = g.blocks.length + 1 from newBlock_length g] at hr
  exact ⟨h₁.trans hg h₂, h₂.reserved (newBlock_reserved hg), hr⟩

/-- Three fresh blocks. -/
theorem threeBlocks {k : Nat} {g : IRGen} (hg : g.WF) :
    Grows k g g.newBlock.2.newBlock.2.newBlock.2 ∧
      g.newBlock.2.newBlock.2.newBlock.2.Reserved g.blocks.length ∧
      g.newBlock.2.newBlock.2.newBlock.2.Reserved (g.blocks.length + 1) ∧
      g.newBlock.2.newBlock.2.newBlock.2.Reserved (g.blocks.length + 2) := by
  obtain ⟨h, hr₁, hr₂⟩ := twoBlocks (k := k) hg
  have h₃ := newBlock_grows (k := k) h.wf
  have hr₃ := newBlock_reserved h.wf
  have hlen : g.newBlock.2.newBlock.2.newBlock.1 = g.blocks.length + 2 := by
    show g.newBlock.2.newBlock.2.blocks.length = _
    rw [newBlock_length, newBlock_length]
  rw [hlen] at hr₃
  exact ⟨h.trans hg h₃, h₃.reserved hr₁, h₃.reserved hr₂, hr₃⟩

/-! ## Going on in another block -/

/-- A reserved block can be written. -/
theorem Reserved.startBlock_wf {g : IRGen} (hg : g.WF) {b : Nat} (hb : g.Reserved b) :
    (g.startBlock b).WF := by
  refine ⟨hb.lt, fun _ => ?_, hg.irId_lt, hg.irId_inj, hg.loops_lt⟩
  show (g.blockAt b).term = .None
  rw [hb.empty]

/-- Other reserved blocks go on waiting. -/
theorem Reserved.startBlock {g : IRGen} {b b' : Nat} (hb : g.Reserved b) (hne : b' ≠ b) :
    (g.startBlock b').Reserved b :=
  ⟨hb.lt, hb.empty, hne⟩

/-- Code that goes on in a block it reserved itself. -/
theorem Grows.startBlock {k : Nat} {g g' : IRGen} (h : Grows k g g') {b : Nat}
    (hnew : g.blocks.length ≤ b) (hb : g'.Reserved b) : Grows k g (g'.startBlock b) :=
  ⟨h.length_le, h.other, h.current, .inr hnew, h.nextVreg_le, h.loops, h.returnsVoid, h.irId,
    hb.startBlock_wf h.wf⟩

theorem WF.pushLoop {g : IRGen} (hg : g.WF) (loop : Loop)
    (hc : loop.continueBB < g.blocks.length) (hb : loop.breakBB < g.blocks.length) :
    (g.pushLoop loop).WF := by
  refine ⟨hg.cur_lt, hg.opened, hg.irId_lt, hg.irId_inj, fun l hl => ?_⟩
  rcases List.mem_cons.mp hl with rfl | hl
  · exact ⟨hc, hb⟩
  · exact hg.loops_lt l hl

/-- What is lowered inside a loop. -/
theorem Grows.popLoop {k : Nat} {g g' : IRGen} {loop : Loop}
    (h : Grows k (g.pushLoop loop) g') : Grows k g g'.popLoop :=
  ⟨h.length_le, h.other, h.current, h.curBB, h.nextVreg_le,
    by rw [IRGen.popLoop, h.loops]; rfl, h.returnsVoid, h.irId,
    ⟨h.wf.cur_lt, h.wf.opened, h.wf.irId_lt, h.wf.irId_inj,
      fun l hl => h.wf.loops_lt l (List.mem_of_mem_tail hl)⟩⟩

/-! ## Instructions and terminators -/

theorem ensureOpen_of_not_sealed {g : IRGen} (h : g.isSealed = false) : g.ensureOpen = g := by
  simp [ensureOpen, h]

theorem ensureOpen_isSealed (g : IRGen) : g.ensureOpen.isSealed = false := by
  cases h : g.isSealed with
  | true => simp [ensureOpen, h, startBlock]
  | false => rw [ensureOpen_of_not_sealed h, h]

theorem ensureOpen_grows {k : Nat} {g : IRGen} (hg : g.WF) : Grows k g g.ensureOpen := by
  cases h : g.isSealed with
  | true =>
    have : g.ensureOpen = g.newBlock.2.startBlock g.newBlock.1 := by simp [ensureOpen, h]
    rw [this]
    exact (newBlock_grows hg).startBlock (Nat.le_refl _) (newBlock_reserved hg)
  | false =>
    rw [ensureOpen_of_not_sealed h]
    exact .refl hg

theorem modifyCur_blockAt_cur {g : IRGen} (hg : g.WF) (f : BasicBlock → BasicBlock) :
    (g.modifyCur f).blockAt g.curBB = f (g.blockAt g.curBB) := by
  simp [blockAt, modifyCur, List.getElem?_eq_getElem hg.cur_lt]

theorem modifyCur_blockAt_of_ne {g : IRGen} (f : BasicBlock → BasicBlock) {b : Nat}
    (hb : b ≠ g.curBB) : (g.modifyCur f).blockAt b = g.blockAt b := by
  simp [blockAt, modifyCur, hb.symm]

/-- Writing in an open block. -/
theorem modifyCur_grows {k : Nat} {g : IRGen} (hg : g.WF) (hopen : g.isSealed = false)
    (f : BasicBlock → BasicBlock) (isSealed : Bool)
    (hinsts : (g.blockAt g.curBB).insts <+: (f (g.blockAt g.curBB)).insts)
    (hterm : isSealed = false → (f (g.blockAt g.curBB)).term = .None) :
    Grows k g { g.modifyCur f with isSealed } where
  length_le := by simp [modifyCur]
  other b _ hne := by
    have hb : b ≠ g.curBB := hne.resolve_right (by simp [hopen])
    exact modifyCur_blockAt_of_ne f hb
  current := by
    show (g.blockAt g.curBB).insts <+: ((g.modifyCur f).blockAt g.curBB).insts
    rw [modifyCur_blockAt_cur hg]
    exact hinsts
  curBB := .inl ⟨rfl, fun h => by rw [hopen] at h; cases h⟩
  nextVreg_le := Nat.le_refl _
  loops := rfl
  returnsVoid := rfl
  irId _ _ := rfl
  wf := by
    have hlen : (g.modifyCur f).blocks.length = g.blocks.length := by simp [modifyCur]
    refine ⟨?_, fun h => ?_, hg.irId_lt, hg.irId_inj, fun l hl => ?_⟩
    · show g.curBB < (g.modifyCur f).blocks.length
      rw [hlen]
      exact hg.cur_lt
    · show ((g.modifyCur f).blockAt g.curBB).term = .None
      rw [modifyCur_blockAt_cur hg]
      exact hterm h
    · show l.continueBB < (g.modifyCur f).blocks.length ∧ l.breakBB < (g.modifyCur f).blocks.length
      rw [hlen]
      exact hg.loops_lt l hl

theorem emit_grows {k : Nat} {g : IRGen} (hg : g.WF) (inst : Inst) :
    Grows k g (g.emit inst) := by
  have ho := ensureOpen_grows (k := k) hg
  have hopen := ensureOpen_isSealed g
  refine ho.trans hg ?_
  have h := modifyCur_grows (k := k) ho.wf hopen (fun bb => { bb with insts := bb.insts ++ [inst] })
    false (List.prefix_append _ _) fun _ => ho.wf.opened hopen
  rw [show { g.ensureOpen.modifyCur fun bb => { bb with insts := bb.insts ++ [inst] } with
    isSealed := false } = g.emit inst by rw [emit, ← hopen]; rfl] at h
  exact h

theorem emit_isSealed (g : IRGen) (inst : Inst) : (g.emit inst).isSealed = false :=
  ensureOpen_isSealed g

theorem close_grows {k : Nat} {g : IRGen} (hg : g.WF) {f : BasicBlock → BasicBlock}
    (hf : ∀ bb, (f bb).insts = bb.insts) : Grows k g (g.close f) := by
  have ho := ensureOpen_grows (k := k) hg
  refine ho.trans hg (modifyCur_grows ho.wf (ensureOpen_isSealed g) f true ?_ (by simp))
  exact (hf _).symm ▸ List.prefix_rfl

theorem termJmp_grows {k : Nat} {g : IRGen} (hg : g.WF) (t : Nat) : Grows k g (g.termJmp t) :=
  close_grows hg fun _ => rfl

theorem termBr_grows {k : Nat} {g : IRGen} (hg : g.WF) (v : Val) (t f : Nat) :
    Grows k g (g.termBr v t f) :=
  close_grows hg fun _ => rfl

theorem termRet_grows {k : Nat} {g : IRGen} (hg : g.WF) (hasVal : Bool) (v : Val) :
    Grows k g (g.termRet hasVal v) :=
  close_grows hg fun _ => rfl

/-! ## Lowering trees -/

/-- A way of lowering something to a value only adds. -/
def Lowers {α : Type} (gen : IRGen → α × IRGen) : Prop :=
  ∀ (k : Nat) (g : IRGen), g.WF → Grows k g (gen g).2

/-- A way of lowering a condition only adds. -/
def Jumps (cond : Nat → Nat → IRGen → IRGen) : Prop :=
  ∀ (k t f : Nat) (g : IRGen), g.WF → Grows k g (cond t f g)

theorem genVar_lowers (S : Sema) (sym : SymId) : Lowers (genVar S sym) := by
  intro k g hg
  unfold genVar
  split
  · have h := newVreg_grows (k := k) hg
    exact h.trans hg (emit_grows h.wf _)
  · exact .refl hg

theorem genBinary_lowers (op : BinOp) {lhs rhs : IRGen → Val × IRGen} (hl : Lowers lhs)
    (hr : Lowers rhs) : Lowers (genBinary op lhs rhs) := by
  intro k g hg
  have h₁ := hl k g hg
  have h₂ := h₁.trans hg (hr k _ h₁.wf)
  have h₃ := h₂.trans hg (newVreg_grows h₂.wf)
  exact h₃.trans hg (emit_grows h₃.wf _)

theorem genUnary_lowers (op : UnOp) {operand : IRGen → Val × IRGen} (ho : Lowers operand) :
    Lowers (genUnary op operand) := by
  intro k g hg
  have h₁ := ho k g hg
  have h₂ := h₁.trans hg (newVreg_grows h₁.wf)
  cases op with
  | Plus => exact h₁
  | Neg => exact h₂.trans hg (emit_grows h₂.wf _)
  | Not => exact h₂.trans hg (emit_grows h₂.wf _)

theorem genCall_lowers (target : FuncRef) {args : IRGen → List Val × IRGen}
    (ha : Lowers args) : Lowers (genCall target args) := by
  intro k g hg
  have h₁ := ha k g hg
  cases hv : target.returnsVoid with
  | true =>
    simp only [genCall, hv, if_true]
    exact h₁.trans hg (emit_grows h₁.wf _)
  | false =>
    have h₂ := h₁.trans hg (newVreg_grows h₁.wf)
    simp only [genCall, hv, Bool.false_eq_true, if_false]
    exact h₂.trans hg (emit_grows h₂.wf _)

theorem genBranch_jumps {value : IRGen → Val × IRGen} (hv : Lowers value) :
    Jumps (genBranch value) := by
  intro k t f g hg
  have h₁ := hv k g hg
  exact h₁.trans hg (termBr_grows h₁.wf _ _ _)

theorem genConstCond_jumps (v : Word) : Jumps (genConstCond v) :=
  fun _ _ _ _ hg => termJmp_grows hg _

theorem genLogicalCond_jumps (isOr : Bool) {lhs rhs : Nat → Nat → IRGen → IRGen}
    (hl : Jumps lhs) (hr : Jumps rhs) : Jumps (genLogicalCond isOr lhs rhs) := by
  intro k t f g hg
  have hnew := newBlock_grows (k := k) hg
  have hmid := newBlock_reserved hg
  have h₁ : Grows k g.newBlock.2 (if isOr then lhs t g.newBlock.1 g.newBlock.2
      else lhs g.newBlock.1 f g.newBlock.2) := by
    split
    · exact hl k _ _ _ hnew.wf
    · exact hl k _ _ _ hnew.wf
  have h₂ := (hnew.trans hg h₁).startBlock (Nat.le_refl _) (h₁.reserved hmid)
  exact h₂.trans hg (hr k t f _ h₂.wf)

/-- The lowering of a short-circuit value with its blocks by number. -/
theorem genLogical_eq (cond : Nat → Nat → IRGen → IRGen) (g : IRGen) :
    genLogical cond g =
      let b := g.blocks.length
      let g₁ := cond b (b + 1) g.newVreg.2.newBlock.2.newBlock.2.newBlock.2
      (.reg g.nextVreg, genTruth g.nextVreg b (b + 1) (b + 2) g₁) := by
  have h₁ := newBlock_length g.newVreg.2
  have h₂ := newBlock_newBlock_length g.newVreg.2
  unfold genLogical
  simp only [newBlock_fst, h₁, h₂]
  rfl

/-- The two blocks that set a truth value are written where they were reserved. -/
theorem genTruth_grows {k : Nat} {g g' : IRGen} (hg : g.WF) (h : Grows k g g') (res : Nat)
    {t f e : Nat} (ht : g'.Reserved t) (hf : g'.Reserved f) (he : g'.Reserved e)
    (hle : g.blocks.length ≤ t) (htf : t < f) (hfe : f < e) :
    Grows k g (genTruth res t f e g') := by
  have hto₁ := h.startBlock hle ht
  have h₁ := emit_grows (k := k) hto₁.wf { op := .Mv, dst := some res, a := .imm 1 }
  have h₂ := h₁.trans hto₁.wf (termJmp_grows h₁.wf e)
  have hf₂ := h₂.reserved (hf.startBlock (Nat.ne_of_lt htf))
  have he₂ := h₂.reserved (he.startBlock (Nat.ne_of_lt (Nat.lt_trans htf hfe)))
  have hto₂ := (hto₁.trans hg h₂).startBlock (Nat.le_trans hle (Nat.le_of_lt htf)) hf₂
  have h₃ := emit_grows (k := k) hto₂.wf { op := .Mv, dst := some res, a := .imm 0 }
  have h₄ := h₃.trans hto₂.wf (termJmp_grows h₃.wf e)
  have he₄ := h₄.reserved (he₂.startBlock (Nat.ne_of_lt hfe))
  exact (hto₂.trans hg h₄).startBlock
    (Nat.le_trans hle (Nat.le_of_lt (Nat.lt_trans htf hfe))) he₄

theorem genLogical_lowers {cond : Nat → Nat → IRGen → IRGen} (hc : Jumps cond) :
    Lowers (genLogical cond) := by
  intro k g hg
  have hv := newVreg_grows (k := k) hg
  obtain ⟨hnew, ht, hf, he⟩ := threeBlocks (k := k) hv.wf
  have h₁ := hc k g.blocks.length (g.blocks.length + 1) _ hnew.wf
  rw [genLogical_eq]
  exact genTruth_grows hg (hv.trans hg (hnew.trans hv.wf h₁)) _ (h₁.reserved ht)
    (h₁.reserved hf) (h₁.reserved he) (Nat.le_refl _) (Nat.lt_succ_self _) (Nat.lt_succ_self _)

mutual
/-- **Lowering an expression only adds.** -/
theorem genExpr_lowers (S : Sema) (e : AExpr) : Lowers (genExpr S e) := by
  intro k g hg
  match e with
  | .number note _ =>
    cases h : note.isConst <;> simp only [genExpr, h, if_true, Bool.false_eq_true, if_false] <;>
      exact .refl hg
  | .var note _ sym =>
    cases h : note.isConst <;> simp only [genExpr, h, if_true, Bool.false_eq_true, if_false]
    · exact genVar_lowers S sym k g hg
    · exact .refl hg
  | .binary note op lhs rhs =>
    cases h : note.isConst <;> simp only [genExpr, h, if_true, Bool.false_eq_true, if_false]
    · exact genBinary_lowers op (genExpr_lowers S lhs) (genExpr_lowers S rhs) k g hg
    · exact .refl hg
  | .logical note isOr lhs rhs =>
    cases h : note.isConst <;> simp only [genExpr, h, if_true, Bool.false_eq_true, if_false]
    · exact genLogical_lowers
        (genLogicalCond_jumps isOr (genCond_jumps S lhs) (genCond_jumps S rhs)) k g hg
    · exact .refl hg
  | .unary note op operand =>
    cases h : note.isConst <;> simp only [genExpr, h, if_true, Bool.false_eq_true, if_false]
    · exact genUnary_lowers op (genExpr_lowers S operand) k g hg
    · exact .refl hg
  | .call note _ args target =>
    cases h : note.isConst <;> simp only [genExpr, h, if_true, Bool.false_eq_true, if_false]
    · exact genCall_lowers target (genArgs_lowers S args) k g hg
    · exact .refl hg
/-- The same for the arguments of a call. -/
theorem genArgs_lowers (S : Sema) (es : List AExpr) : Lowers (genArgs S es) := by
  intro k g hg
  match es with
  | [] => exact .refl hg
  | e :: es =>
    have h := genExpr_lowers S e k g hg
    exact h.trans hg (genArgs_lowers S es k _ h.wf)
/-- **Lowering a condition only adds.** -/
theorem genCond_jumps (S : Sema) (e : AExpr) : Jumps (genCond S e) := by
  intro k t f g hg
  match e with
  | .number note _ =>
    cases h : note.isConst <;> simp only [genCond, h, if_true, Bool.false_eq_true, if_false]
    · exact genBranch_jumps (fun _ _ hg => .refl hg) k t f g hg
    · exact genConstCond_jumps _ k t f g hg
  | .var note _ sym =>
    cases h : note.isConst <;> simp only [genCond, h, if_true, Bool.false_eq_true, if_false]
    · exact genBranch_jumps (genVar_lowers S sym) k t f g hg
    · exact genConstCond_jumps _ k t f g hg
  | .binary note op lhs rhs =>
    cases h : note.isConst <;> simp only [genCond, h, if_true, Bool.false_eq_true, if_false]
    · exact genBranch_jumps
        (genBinary_lowers op (genExpr_lowers S lhs) (genExpr_lowers S rhs)) k t f g hg
    · exact genConstCond_jumps _ k t f g hg
  | .logical note isOr lhs rhs =>
    cases h : note.isConst <;> simp only [genCond, h, if_true, Bool.false_eq_true, if_false]
    · exact genLogicalCond_jumps isOr (genCond_jumps S lhs) (genCond_jumps S rhs) k t f g hg
    · exact genConstCond_jumps _ k t f g hg
  | .unary note op operand =>
    cases h : note.isConst <;> simp only [genCond, h, if_true, Bool.false_eq_true, if_false]
    · cases op with
      | Plus => exact genBranch_jumps (genUnary_lowers _ (genExpr_lowers S operand)) k t f g hg
      | Neg => exact genBranch_jumps (genUnary_lowers _ (genExpr_lowers S operand)) k t f g hg
      | Not => exact genCond_jumps S operand k f t g hg
    · exact genConstCond_jumps _ k t f g hg
  | .call note _ args target =>
    cases h : note.isConst <;> simp only [genCond, h, if_true, Bool.false_eq_true, if_false]
    · exact genBranch_jumps (genCall_lowers target (genArgs_lowers S args)) k t f g hg
    · exact genConstCond_jumps _ k t f g hg
end

/-! ## Lowering statements -/

/-- A way of lowering a statement only adds, and leaves the symbols up to `k` alone. -/
def Writes (k : Nat) (stmt : IRGen → IRGen) : Prop := ∀ g : IRGen, g.WF → Grows k g (stmt g)

theorem genAssign_writes (k : Nat) (S : Sema) (sym : SymId) (value : AExpr) :
    Writes k (genAssign S sym value) := by
  intro g hg
  have h := genExpr_lowers S value k g hg
  by_cases hk : (S.symbol sym).kind = .GlobalVar
  · simp only [genAssign, hk, if_true]
    exact h.trans hg (emit_grows h.wf _)
  · simp only [genAssign, hk, if_false]
    exact h.trans hg (emit_grows h.wf _)

/-- The vregs once a new variable has one. -/
theorem lookup_bindVreg (irId : List (SymId × Nat)) (sym : SymId) (v : Nat) (id : SymId) :
    ((sym, v) :: irId).lookup id = if id = sym then some v else irId.lookup id := by
  rw [List.lookup_cons]
  by_cases h : id = sym
  · rw [if_pos h, beq_iff_eq.mpr h]
  · rw [if_neg h, beq_eq_false_iff_ne.mpr h]

/-- The generator once a new variable has its vreg. -/
theorem bindVreg_grows {k : Nat} {g : IRGen} (hg : g.WF) {sym : SymId} (hk : k ≤ sym) :
    Grows k g { g.newVreg.2 with irId := (sym, g.nextVreg) :: g.irId } := by
  refine ⟨Nat.le_refl _, fun _ _ _ => rfl, List.prefix_rfl, .inl ⟨rfl, id⟩, Nat.le_succ _, rfl,
    rfl, fun id hid => ?_, hg.cur_lt, hg.opened, fun id r h => ?_, fun id id' r h h' => ?_,
    hg.loops_lt⟩
  · show ((sym, g.nextVreg) :: g.irId).lookup id = _
    rw [lookup_bindVreg, if_neg (Nat.ne_of_lt (Nat.lt_of_lt_of_le hid hk))]
  · replace h : ((sym, g.nextVreg) :: g.irId).lookup id = some r := h
    rw [lookup_bindVreg] at h
    split at h
    · cases h
      exact Nat.lt_succ_self _
    · exact Nat.lt_succ_of_lt (hg.irId_lt id r h)
  · replace h : ((sym, g.nextVreg) :: g.irId).lookup id = some r := h
    replace h' : ((sym, g.nextVreg) :: g.irId).lookup id' = some r := h'
    rw [lookup_bindVreg] at h h'
    split at h <;> rename_i hi <;> split at h' <;> rename_i hi'
    · exact hi.trans hi'.symm
    · cases h
      exact absurd (hg.irId_lt id' _ h') (Nat.lt_irrefl _)
    · cases h'
      exact absurd (hg.irId_lt id _ h) (Nat.lt_irrefl _)
    · exact hg.irId_inj id id' r h h'

theorem genVarDecl_writes {k : Nat} (S : Sema) (init : AExpr) {sym : SymId} (hk : k ≤ sym) :
    Writes k (genVarDecl S init sym) := by
  intro g hg
  have hv := bindVreg_grows hg hk
  have h := hv.trans hg (genExpr_lowers S init k _ hv.wf)
  exact h.trans hg (emit_grows h.wf _)

/-- The jumps around a conditional with their blocks by number. -/
theorem genIf_eq (cond : Nat → Nat → IRGen → IRGen) (then_ : IRGen → IRGen) (g : IRGen) :
    genIf cond then_ g =
      let b := g.blocks.length
      let g₁ := cond b (b + 1) g.newBlock.2.newBlock.2
      let g₂ := (then_ (g₁.startBlock b)).termJmp (b + 1)
      g₂.startBlock (b + 1) := by
  unfold genIf
  simp only [newBlock_fst, newBlock_length]

theorem genIfElse_eq (cond : Nat → Nat → IRGen → IRGen) (then_ else_ : IRGen → IRGen)
    (g : IRGen) :
    genIfElse cond then_ else_ g =
      let b := g.blocks.length
      let g₁ := cond b (b + 2) g.newBlock.2.newBlock.2.newBlock.2
      let g₂ := (then_ (g₁.startBlock b)).termJmp (b + 1)
      let g₃ := (else_ (g₂.startBlock (b + 2))).termJmp (b + 1)
      g₃.startBlock (b + 1) := by
  unfold genIfElse
  simp only [newBlock_fst, newBlock_length]

theorem genIf_writes {k : Nat} {cond : Nat → Nat → IRGen → IRGen} {then_ : IRGen → IRGen}
    (hc : Jumps cond) (ht : Writes k then_) : Writes k (genIf cond then_) := by
  intro g hg
  obtain ⟨hnew, htBB, hjBB⟩ := twoBlocks (k := k) hg
  have h₁ := hc k g.blocks.length (g.blocks.length + 1) _ hnew.wf
  have hto₁ := (hnew.trans hg h₁).startBlock (Nat.le_refl _) (h₁.reserved htBB)
  have h₂ := ht _ hto₁.wf
  have h₃ := h₂.trans hto₁.wf (termJmp_grows h₂.wf (g.blocks.length + 1))
  have hj₃ := h₃.reserved ((h₁.reserved hjBB).startBlock (by simp))
  rw [genIf_eq]
  exact (hto₁.trans hg h₃).startBlock (Nat.le_succ _) hj₃

theorem genIfElse_writes {k : Nat} {cond : Nat → Nat → IRGen → IRGen}
    {then_ else_ : IRGen → IRGen} (hc : Jumps cond) (ht : Writes k then_)
    (he : Writes k else_) : Writes k (genIfElse cond then_ else_) := by
  intro g hg
  obtain ⟨hnew, htBB, hjBB, heBB⟩ := threeBlocks (k := k) hg
  have h₁ := hc k g.blocks.length (g.blocks.length + 2) _ hnew.wf
  have hto₁ := (hnew.trans hg h₁).startBlock (Nat.le_refl _) (h₁.reserved htBB)
  have h₂ := ht _ hto₁.wf
  have h₃ := h₂.trans hto₁.wf (termJmp_grows h₂.wf (g.blocks.length + 1))
  have hj₃ := h₃.reserved ((h₁.reserved hjBB).startBlock (by simp))
  have he₃ := h₃.reserved ((h₁.reserved heBB).startBlock (by simp))
  have hto₃ := (hto₁.trans hg h₃).startBlock (by simp) he₃
  have h₄ := he _ hto₃.wf
  have h₅ := h₄.trans hto₃.wf (termJmp_grows h₄.wf (g.blocks.length + 1))
  have hj₅ := h₅.reserved (hj₃.startBlock (by simp))
  rw [genIfElse_eq]
  exact (hto₃.trans hg h₅).startBlock (Nat.le_succ _) hj₅

theorem genWhile_eq (cond : Nat → Nat → IRGen → IRGen) (body : IRGen → IRGen) (g : IRGen) :
    genWhile cond body g =
      let b := g.blocks.length
      let g₁ := g.newBlock.2.newBlock.2.newBlock.2.termJmp (b + 1)
      let g₂ := (body ((g₁.startBlock b).pushLoop ⟨b + 1, b + 2⟩)).termJmp (b + 1)
      let g₃ := cond b (b + 2) (g₂.popLoop.startBlock (b + 1))
      g₃.startBlock (b + 2) := by
  unfold genWhile
  simp only [newBlock_fst, newBlock_length]
  rfl

theorem genWhile_writes {k : Nat} {cond : Nat → Nat → IRGen → IRGen} {body : IRGen → IRGen}
    (hc : Jumps cond) (hb : Writes k body) : Writes k (genWhile cond body) := by
  intro g hg
  obtain ⟨hnew, hbBB, hcBB, haBB⟩ := threeBlocks (k := k) hg
  have h₁ := termJmp_grows (k := k) hnew.wf (g.blocks.length + 1)
  have hc₁ := h₁.reserved hcBB
  have ha₁ := h₁.reserved haBB
  have hto₁ := (hnew.trans hg h₁).startBlock (Nat.le_refl _) (h₁.reserved hbBB)
  have hin := hto₁.wf.pushLoop ⟨g.blocks.length + 1, g.blocks.length + 2⟩ hc₁.lt ha₁.lt
  have h₂ := hb _ hin
  have h₃ := (h₂.trans hin (termJmp_grows h₂.wf (g.blocks.length + 1))).popLoop
  have hc₃ := h₃.reserved (hc₁.startBlock (by simp))
  have ha₃ := h₃.reserved (ha₁.startBlock (by simp))
  have hto₃ := (hto₁.trans hg h₃).startBlock (Nat.le_succ _) hc₃
  have h₄ := hc k g.blocks.length (g.blocks.length + 2) _ hto₃.wf
  have ha₄ := h₄.reserved (ha₃.startBlock (by simp))
  rw [genWhile_eq]
  exact (hto₃.trans hg h₄).startBlock (by simp) ha₄

mutual
/-- **Lowering an analysed statement only adds**: the symbols the analysis knew before
it keep their vregs. -/
theorem genStmt_writes {k : Nat} {A S S' : Sema} {s : Stmt} {s' : AStmt}
    (h : Sema.analyzeStmt S s = .ok (s', S')) (hk : k ≤ S.arena.length) :
    Writes k (genStmt A s') := by
  intro g hg
  match s with
  | .block _ ss =>
    simp only [Sema.analyzeStmt, bind_eq_ok, Prod.exists] at h
    obtain ⟨ss', S₁, hss, h⟩ := h
    cases h
    exact genStmts_writes hss hk g hg
  | .empty _ =>
    cases h
    exact .refl hg
  | .exprStmt _ e =>
    simp only [Sema.analyzeStmt, bind_eq_ok] at h
    obtain ⟨e', -, h⟩ := h
    cases h
    exact genExpr_lowers A e' k g hg
  | .assign line x value =>
    simp only [Sema.analyzeStmt, bind_eq_ok] at h
    obtain ⟨s₁, hs₁, h⟩ := h
    cases h
    unfold Sema.analyzeAssign at hs₁
    split at hs₁
    · cases hs₁
    · split at hs₁
      · cases hs₁
      · simp only [bind_eq_ok] at hs₁
        obtain ⟨value', -, hs₁⟩ := hs₁
        cases hs₁
        exact genAssign_writes k A _ value' g hg
  | .varDecl line isConst x init =>
    simp only [Sema.analyzeStmt, Sema.analyzeVarDecl, bind_eq_ok] at h
    obtain ⟨init', -, h⟩ := h
    split at h
    · split at h
      · cases h
      · cases h
        exact .refl hg
    · cases h
      exact genVarDecl_writes A init' hk g hg
  | .ifStmt _ cond then_ none =>
    simp only [Sema.analyzeStmt, bind_eq_ok, Prod.exists] at h
    obtain ⟨cond', -, then', S₁, hthen, h⟩ := h
    cases h
    simp only [genStmt]
    split
    · split
      · exact genStmt_writes hthen hk g hg
      · exact .refl hg
    · exact genIf_writes (genCond_jumps A cond') (genStmt_writes hthen hk) g hg
  | .ifStmt _ cond then_ (some else_) =>
    simp only [Sema.analyzeStmt, bind_eq_ok, Prod.exists] at h
    obtain ⟨cond', -, then', S₁, hthen, else', S₂, helse, h⟩ := h
    cases h
    have hk₁ := Nat.le_trans hk (Sema.analyzeStmt_grows hthen).length_le
    simp only [genStmt]
    split
    · split
      · exact genStmt_writes hthen hk g hg
      · exact genStmt_writes helse hk₁ g hg
    · exact genIfElse_writes (genCond_jumps A cond') (genStmt_writes hthen hk)
        (genStmt_writes helse hk₁) g hg
  | .whileStmt _ cond body =>
    simp only [Sema.analyzeStmt, bind_eq_ok, Prod.exists] at h
    obtain ⟨cond', -, body', S₁, hbody, h⟩ := h
    cases h
    exact genWhile_writes (genCond_jumps A cond') (genStmt_writes hbody hk) g hg
  | .breakStmt line | .continueStmt line =>
    simp only [Sema.analyzeStmt] at h
    split at h
    · cases h
    · cases h
      exact termJmp_grows hg _
  | .returnStmt _ none =>
    cases h
    exact termRet_grows hg _ _
  | .returnStmt _ (some value) =>
    simp only [Sema.analyzeStmt, bind_eq_ok] at h
    obtain ⟨value', -, h⟩ := h
    cases h
    have h := genExpr_lowers A value' k g hg
    exact h.trans hg (termRet_grows h.wf _ _)
/-- The same for the statements of a block. -/
theorem genStmts_writes {k : Nat} {A S S' : Sema} {ss : List Stmt} {ss' : List AStmt}
    (h : Sema.analyzeStmts S ss = .ok (ss', S')) (hk : k ≤ S.arena.length) :
    Writes k (genStmts A ss') := by
  intro g hg
  match ss with
  | [] =>
    cases h
    exact .refl hg
  | s :: ss =>
    simp only [Sema.analyzeStmts, bind_eq_ok, Prod.exists] at h
    obtain ⟨s', S₁, hs, ss', S₂, hss, h⟩ := h
    cases h
    have h := genStmt_writes (A := A) hs hk g hg
    exact h.trans hg (genStmts_writes hss
      (Nat.le_trans hk (Sema.analyzeStmt_grows hs).length_le) _ h.wf)
end

end IRGen

end ToyC
