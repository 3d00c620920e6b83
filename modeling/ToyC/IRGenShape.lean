import Mathlib.Data.Finset.Insert
import ToyC.IRGenCorrect

/-!
# The graphs the generator builds

While a tree is lowered some blocks wait for their code: the branches of a conditional, the block
behind a loop. `Shaped` says what holds of all the others. They are numbered in order, they have a
terminator unless they are the one being written, and they lead to blocks that exist, never to the
entry. Every way of lowering something keeps this, and needs nothing else to pass the checks of the
generator (`Runs`); at the end of a function no block is waiting, and what is left is a control flow
graph in order (`generate_graphOk`).
-/

namespace ToyC

namespace IRGen

open Sema

/-- **A block code can jump to**: any but the entry. -/
def Target (g : IRGen) (b : Nat) : Prop := 0 < b ∧ b < g.blocks.length

/-- **The graph of an unfinished function**, in which some blocks are waiting. -/
structure Shaped (W : Finset Nat) (g : IRGen) : Prop where
  cur_lt : g.curBB < g.blocks.length
  opened : g.isSealed = false → (g.blockAt g.curBB).term = .None
  waiting : ∀ b ∈ W, g.Reserved b
  ids : ∀ b < g.blocks.length, (g.blockAt b).id = b
  ended : ∀ b < g.blocks.length, b ∉ W → b ≠ g.curBB ∨ g.isSealed = true →
    (g.blockAt b).term ≠ .None
  succs : ∀ b < g.blocks.length, ∀ s ∈ succsOf (g.blockAt b), g.Target s
  loops : ∀ l ∈ g.loops, g.Target l.continueBB ∧ g.Target l.breakBB

/-- **Some code was lowered**: the graph is still in order, and the loops are the same. -/
structure Adds (W : Finset Nat) (g g' : IRGen) : Prop where
  shaped : g'.Shaped W
  length_le : g.blocks.length ≤ g'.blocks.length
  loops : g'.loops = g.loops

/-- The same for a condition or a jump, which seal the block they end in. -/
structure Seals (W : Finset Nat) (g g' : IRGen) : Prop extends Adds W g g' where
  sealed : g'.isSealed = true

section Shaped

variable {V W : Finset Nat} {g g' g'' : IRGen}

theorem Target.mono {b : Nat} (h : g.Target b) (hle : g.blocks.length ≤ g'.blocks.length) :
    g'.Target b :=
  ⟨h.1, Nat.lt_of_lt_of_le h.2 hle⟩

theorem Shaped.notMem (h : g.Shaped W) {b : Nat} (hb : g.blocks.length ≤ b) : b ∉ W :=
  fun hmem => absurd (h.waiting b hmem).lt (Nat.not_lt.mpr hb)

theorem Adds.refl (h : g.Shaped W) : Adds W g g := ⟨h, Nat.le_refl _, rfl⟩

theorem Adds.trans (h : Adds V g g') (h' : Adds W g' g'') : Adds W g g'' :=
  ⟨h'.shaped, Nat.le_trans h.length_le h'.length_le, h'.loops.trans h.loops⟩

theorem Adds.seals (h : Adds V g g') (h' : Seals W g' g'') : Seals W g g'' :=
  ⟨h.trans h'.toAdds, h'.sealed⟩

/-- Giving out vregs does not touch the graph, and entering or leaving a loop neither. -/
theorem Shaped.of_blocks (h : g.Shaped W) (hblocks : g'.blocks = g.blocks)
    (hcur : g'.curBB = g.curBB) (hsealed : g'.isSealed = g.isSealed)
    (hloops : ∀ l ∈ g'.loops, g.Target l.continueBB ∧ g.Target l.breakBB) : g'.Shaped W := by
  have hat : ∀ b, g'.blockAt b = g.blockAt b := fun b => by rw [blockAt, blockAt, hblocks]
  constructor
  · rw [hcur, hblocks]
    exact h.cur_lt
  · rw [hcur, hsealed, hat]
    exact h.opened
  · exact fun b hb => ⟨hblocks ▸ (h.waiting b hb).lt, (hat b).trans (h.waiting b hb).empty,
      hcur ▸ (h.waiting b hb).ne_cur⟩
  · simp only [hat, hblocks]
    exact h.ids
  · simp only [hat, hblocks, hcur, hsealed]
    exact h.ended
  · simp only [hat, hblocks, Target]
    exact h.succs
  · simp only [Target, hblocks]
    exact hloops

theorem newVreg_adds (h : g.Shaped W) : Adds W g g.newVreg.2 :=
  ⟨h.of_blocks rfl rfl rfl h.loops, Nat.le_refl _, rfl⟩

/-! ## Blocks -/

/-- A fresh block waits. -/
theorem newBlock_shaped (h : g.Shaped W) : g.newBlock.2.Shaped (insert g.blocks.length W) := by
  have hat : ∀ b < g.blocks.length, g.newBlock.2.blockAt b = g.blockAt b :=
    fun b hb => newBlock_blockAt_of_lt hb
  have hnew := newBlock_blockAt_new g
  have hlen := newBlock_length g
  have hle : g.blocks.length ≤ g.newBlock.2.blocks.length := by omega
  constructor
  · rw [hlen]
    exact Nat.lt_succ_of_lt h.cur_lt
  · intro hs
    exact (congrArg _ (hat _ h.cur_lt)).trans (h.opened hs)
  · intro b hb
    rcases Finset.mem_insert.mp hb with rfl | hb
    · exact ⟨by omega, hnew, Nat.ne_of_lt h.cur_lt⟩
    · have hr := h.waiting b hb
      exact ⟨Nat.lt_of_lt_of_le hr.lt hle, (hat b hr.lt).trans hr.empty, hr.ne_cur⟩
  · intro b hb
    rcases Nat.lt_succ_iff_lt_or_eq.mp (hlen ▸ hb) with hb | rfl
    · rw [hat b hb]
      exact h.ids b hb
    · rw [hnew]
  · intro b hb hmem hne
    rw [Finset.mem_insert, not_or] at hmem
    rcases Nat.lt_succ_iff_lt_or_eq.mp (hlen ▸ hb) with hb | rfl
    · rw [hat b hb]
      exact h.ended b hb hmem.2 hne
    · exact absurd rfl hmem.1
  · intro b hb s hs
    rcases Nat.lt_succ_iff_lt_or_eq.mp (hlen ▸ hb) with hb | rfl
    · rw [hat b hb] at hs
      exact (h.succs b hb s hs).mono hle
    · rw [hnew] at hs
      cases hs
  · exact fun l hl => (h.loops l hl).imp (·.mono hle) (·.mono hle)

/-- A fresh block can be jumped to. -/
theorem newBlock_target (h : g.Shaped W) : g.newBlock.2.Target g.blocks.length :=
  ⟨Nat.zero_lt_of_lt h.cur_lt, by rw [newBlock_length]; exact Nat.lt_succ_self _⟩

/-- A waiting block is written, once the current one is sealed. -/
theorem startBlock_shaped {b : Nat} (h : g.Shaped (insert b W)) (hb : b ∉ W)
    (hsealed : g.isSealed = true) : (g.startBlock b).Shaped W := by
  have hr := h.waiting b (Finset.mem_insert_self ..)
  refine ⟨hr.lt, fun _ => ?_, fun c hc => ?_, h.ids, fun c hc hmem hne => ?_, h.succs, h.loops⟩
  · show (g.blockAt b).term = .None
    rw [hr.empty]
  · have hrc := h.waiting c (Finset.mem_insert_of_mem hc)
    exact ⟨hrc.lt, hrc.empty, fun heq : b = c => hb (heq ▸ hc)⟩
  · have hne : c ≠ b := hne.resolve_right (by simp [startBlock])
    refine h.ended c hc ?_ (.inr hsealed)
    rw [Finset.mem_insert, not_or]
    exact ⟨hne, hmem⟩

/-- Code that ends sealed goes on in a waiting block. -/
theorem Seals.startBlock {b : Nat} (h : Seals (insert b W) g g') (hb : b ∉ W) :
    Adds W g (g'.startBlock b) :=
  ⟨startBlock_shaped h.shaped hb h.sealed, h.length_le, h.loops⟩

/-- What is lowered inside a loop. -/
theorem Seals.popLoop {loop : Loop} (h : Seals W (g.pushLoop loop) g') : Seals W g g'.popLoop where
  shaped := h.shaped.of_blocks rfl rfl rfl fun l hl => h.shaped.loops l (List.mem_of_mem_tail hl)
  length_le := h.length_le
  loops := by
    rw [IRGen.popLoop, h.loops]
    rfl
  sealed := h.sealed

theorem newBlock_adds (h : g.Shaped W) : Adds (insert g.blocks.length W) g g.newBlock.2 :=
  ⟨newBlock_shaped h, by rw [newBlock_length]; exact Nat.le_succ _, rfl⟩

theorem ensureOpen_adds (h : g.Shaped W) : Adds W g g.ensureOpen := by
  cases hs : g.isSealed with
  | false =>
    rw [ensureOpen_of_not_sealed hs]
    exact .refl h
  | true =>
    have heq : g.ensureOpen = g.newBlock.2.startBlock g.blocks.length := by
      simp [ensureOpen, hs, newBlock_fst]
    rw [heq]
    exact Seals.startBlock ⟨newBlock_adds h, hs⟩ (h.notMem (Nat.le_refl _))

theorem ensureOpen_canWrite (h : g.Shaped W) : g.ensureOpen.canWrite = true := by
  have ho := (ensureOpen_adds h).shaped
  unfold canWrite
  rw [Bool.and_eq_true, decide_eq_true_iff, decide_eq_true_iff]
  exact ⟨ho.cur_lt, ho.opened (ensureOpen_isSealed g)⟩

/-- Writing in the current block. -/
theorem modifyCur_shaped (h : g.Shaped W) (f : BasicBlock → BasicBlock) (isSealed : Bool)
    (hid : (f (g.blockAt g.curBB)).id = (g.blockAt g.curBB).id)
    (hterm : isSealed = true ↔ (f (g.blockAt g.curBB)).term ≠ .None)
    (hsuccs : ∀ s ∈ succsOf (f (g.blockAt g.curBB)), g.Target s) :
    Shaped W { g.modifyCur f with isSealed } := by
  have hlen : (g.modifyCur f).blocks.length = g.blocks.length := by simp [modifyCur]
  have hcur : (g.modifyCur f).blockAt g.curBB = f (g.blockAt g.curBB) := by
    simp [blockAt, modifyCur, List.getElem?_eq_getElem h.cur_lt]
  have hother : ∀ b ≠ g.curBB, (g.modifyCur f).blockAt b = g.blockAt b :=
    fun b hb => modifyCur_blockAt_of_ne f hb
  have hmono : ∀ {b}, g.Target b → Target { g.modifyCur f with isSealed } b :=
    fun hb => hb.mono (Nat.le_of_eq hlen.symm)
  refine ⟨hlen.symm ▸ h.cur_lt, fun hs => ?_, fun b hb => ?_, fun b hb => ?_,
    fun b hb hmem hne => ?_, fun b hb s hs => ?_,
    fun l hl => (h.loops l hl).imp (fun h => hmono h) fun h => hmono h⟩
  · show ((g.modifyCur f).blockAt g.curBB).term = .None
    rw [hcur]
    by_contra hne
    exact Bool.false_ne_true (hs.symm.trans (hterm.mpr hne))
  · have hr := h.waiting b hb
    exact ⟨hlen.symm ▸ hr.lt, (hother b hr.ne_cur.symm).trans hr.empty, hr.ne_cur⟩
  · show ((g.modifyCur f).blockAt b).id = b
    by_cases hbc : b = g.curBB
    · rw [hbc, hcur, hid]
      exact h.ids _ h.cur_lt
    · rw [hother b hbc]
      exact h.ids b (hlen ▸ hb)
  · show ((g.modifyCur f).blockAt b).term ≠ .None
    by_cases hbc : b = g.curBB
    · rw [hbc, hcur]
      exact hterm.mp (hne.resolve_left fun hne => hne hbc)
    · rw [hother b hbc]
      exact h.ended b (hlen ▸ hb) hmem (.inl hbc)
  · by_cases hbc : b = g.curBB
    · rw [hbc] at hs
      exact hmono (hsuccs s (hcur ▸ hs))
    · replace hs : s ∈ succsOf ((g.modifyCur f).blockAt b) := hs
      rw [hother b hbc] at hs
      exact hmono (h.succs b (hlen ▸ hb) s hs)

theorem emit_adds (h : g.Shaped W) (inst : Inst) : Adds W g (g.emit inst) := by
  have ho := ensureOpen_adds h
  have hopen := ensureOpen_isSealed g
  have hterm := ho.shaped.opened hopen
  have hshaped := modifyCur_shaped ho.shaped (fun bb => { bb with insts := bb.insts ++ [inst] })
    false rfl (iff_of_false Bool.false_ne_true fun hne => hne hterm)
    (ho.shaped.succs _ ho.shaped.cur_lt)
  rw [show { g.ensureOpen.modifyCur fun bb => { bb with insts := bb.insts ++ [inst] } with
    isSealed := false } = g.emit inst by rw [emit, ← hopen]; rfl] at hshaped
  refine ho.trans ⟨hshaped, ?_, rfl⟩
  simp [emit, modifyCur]

theorem emit?_eq (h : g.Shaped W) (inst : Inst) : g.emit? inst = some (g.emit inst) :=
  if_pos (ensureOpen_canWrite h)

theorem close_seals (h : g.Shaped W) {f : BasicBlock → BasicBlock}
    (hid : ∀ bb, (f bb).id = bb.id) (hterm : ∀ bb, (f bb).term ≠ .None)
    (hsuccs : ∀ bb, ∀ s ∈ succsOf (f bb), g.Target s) : Seals W g (g.close f) := by
  have ho := ensureOpen_adds h
  refine ⟨ho.trans ⟨modifyCur_shaped ho.shaped f true (hid _) (iff_of_true rfl (hterm _)) ?_, ?_,
    rfl⟩, rfl⟩
  · exact fun s hs => (hsuccs _ s hs).mono ho.length_le
  · simp [close, modifyCur]

theorem close?_eq (h : g.Shaped W) (f : BasicBlock → BasicBlock) :
    g.close? f = some (g.close f) :=
  if_pos (ensureOpen_canWrite h)

theorem termJmp_seals (h : g.Shaped W) {t : Nat} (ht : g.Target t) :
    g.termJmp? t = some (g.termJmp t) ∧ Seals W g (g.termJmp t) := by
  refine ⟨close?_eq h _, close_seals h (fun _ => rfl) (fun _ => Term.noConfusion) ?_⟩
  intro bb s hs
  obtain rfl : s = t := List.mem_singleton.mp hs
  exact ht

theorem termBr_seals (h : g.Shaped W) (v : Val) {t f : Nat} (ht : g.Target t) (hf : g.Target f) :
    g.termBr? v t f = some (g.termBr v t f) ∧ Seals W g (g.termBr v t f) := by
  refine ⟨close?_eq h _, close_seals h (fun _ => rfl) (fun _ => Term.noConfusion) ?_⟩
  intro bb s hs
  rcases List.mem_pair.mp hs with rfl | rfl
  · exact ht
  · exact hf

theorem termRet_seals (h : g.Shaped W) (hasVal : Bool) (v : Val) :
    g.termRet? hasVal v = some (g.termRet hasVal v) ∧ Seals W g (g.termRet hasVal v) :=
  ⟨close?_eq h _, close_seals h (fun _ => rfl) (fun _ => Term.noConfusion) fun _ _ hs => by cases hs⟩

end Shaped

/-! ## Lowering expressions -/

/-- **A way of lowering something to a value** passes the checks and keeps the graph in order. -/
def Runs {α : Type} (gen? : IRGen → Option (α × IRGen)) (gen : IRGen → α × IRGen) : Prop :=
  ∀ ⦃W : Finset Nat⦄ ⦃g : IRGen⦄, g.Shaped W → gen? g = some (gen g) ∧ Adds W g (gen g).2

/-- The same for a condition. -/
def RunsCond (cond? : Nat → Nat → IRGen → Option IRGen) (cond : Nat → Nat → IRGen → IRGen) : Prop :=
  ∀ ⦃W : Finset Nat⦄ ⦃g : IRGen⦄ ⦃t f : Nat⦄, g.Shaped W → g.Target t → g.Target f →
    cond? t f g = some (cond t f g) ∧ Seals W g (cond t f g)

/-- The same for a statement inside so many loops. -/
def RunsIn (depth : Nat) (stmt? : IRGen → Option IRGen) (stmt : IRGen → IRGen) : Prop :=
  ∀ ⦃W : Finset Nat⦄ ⦃g : IRGen⦄, g.Shaped W → g.loops.length = depth →
    stmt? g = some (stmt g) ∧ Adds W g (stmt g)

theorem Runs.const {α : Type} (a : α) : Runs (fun g => some (a, g)) fun g => (a, g) :=
  fun _ _ h => ⟨rfl, .refl h⟩

theorem genVar_runs (S : Sema) (sym : SymId) : Runs (genVar? false S sym) (genVar S sym) := by
  intro W g h
  unfold genVar? genVar
  split
  · have hv := newVreg_adds h
    exact ⟨by simp only [emit?_eq hv.shaped, Option.bind_eq_bind, Option.bind_some],
      hv.trans (emit_adds hv.shaped _)⟩
  · exact ⟨rfl, .refl h⟩

theorem genBinary_runs (op : BinOp) {lhs? rhs? : IRGen → Option (Val × IRGen)}
    {lhs rhs : IRGen → Val × IRGen} (hl : Runs lhs? lhs) (hr : Runs rhs? rhs) :
    Runs (genBinary? op lhs? rhs?) (genBinary op lhs rhs) := by
  intro W g h
  obtain ⟨hl, h₁⟩ := hl h
  obtain ⟨hr, h₂⟩ := hr h₁.shaped
  have h₃ := newVreg_adds h₂.shaped
  refine ⟨?_, h₁.trans (h₂.trans (h₃.trans (emit_adds h₃.shaped _)))⟩
  simp only [genBinary?, hl, hr, emit?_eq h₃.shaped, Option.bind_eq_bind, Option.bind_some]
  rfl

theorem genUnary_runs (op : UnOp) {operand? : IRGen → Option (Val × IRGen)}
    {operand : IRGen → Val × IRGen} (ho : Runs operand? operand) :
    Runs (genUnary? op operand?) (genUnary op operand) := by
  intro W g h
  obtain ⟨ho, h₁⟩ := ho h
  have h₂ := newVreg_adds h₁.shaped
  cases op with
  | Plus => exact ⟨ho, h₁⟩
  | Neg | Not =>
    refine ⟨?_, h₁.trans (h₂.trans (emit_adds h₂.shaped _))⟩
    simp only [genUnary?, ho, emit?_eq h₂.shaped, Option.bind_eq_bind, Option.bind_some]
    rfl

theorem genCall_runs (target : FuncRef) {args? : IRGen → Option (List Val × IRGen)}
    {args : IRGen → List Val × IRGen} (ha : Runs args? args) :
    Runs (genCall? target args?) (genCall target args) := by
  intro W g h
  obtain ⟨ha, h₁⟩ := ha h
  have h₂ := newVreg_adds h₁.shaped
  cases hv : target.returnsVoid with
  | true =>
    simp only [genCall?, genCall, hv, if_true, ha, emit?_eq h₁.shaped, Option.bind_eq_bind,
      Option.bind_some]
    exact ⟨trivial, h₁.trans (emit_adds h₁.shaped _)⟩
  | false =>
    simp only [genCall?, genCall, hv, Bool.false_eq_true, if_false, ha, emit?_eq h₂.shaped,
      Option.bind_eq_bind, Option.bind_some]
    exact ⟨trivial, h₁.trans (h₂.trans (emit_adds h₂.shaped _))⟩

theorem genBranch_runs {value? : IRGen → Option (Val × IRGen)} {value : IRGen → Val × IRGen}
    (hv : Runs value? value) : RunsCond (genBranch? value?) (genBranch value) := by
  intro W g t f h ht hf
  obtain ⟨hv, h₁⟩ := hv h
  obtain ⟨hbr, h₂⟩ := termBr_seals h₁.shaped (value g).1 (ht.mono h₁.length_le) (hf.mono h₁.length_le)
  refine ⟨?_, h₁.seals h₂⟩
  simp only [genBranch?, hv, Option.bind_eq_bind, Option.bind_some]
  exact hbr

theorem genConstCond_runs (v : Word) : RunsCond (genConstCond? v) (genConstCond v) := by
  intro W g t f h ht hf
  refine termJmp_seals h ?_
  split
  · exact ht
  · exact hf

theorem genLogicalCond_runs (isOr : Bool) {lhs? rhs? : Nat → Nat → IRGen → Option IRGen}
    {lhs rhs : Nat → Nat → IRGen → IRGen} (hl : RunsCond lhs? lhs) (hr : RunsCond rhs? rhs) :
    RunsCond (genLogicalCond? isOr lhs? rhs?) (genLogicalCond isOr lhs rhs) := by
  intro W g t f h ht hf
  have hnew := newBlock_adds h
  have hmid := newBlock_target h
  have h₁ : ∀ t' f', g.newBlock.2.Target t' → g.newBlock.2.Target f' →
      lhs? t' f' g.newBlock.2 = some (lhs t' f' g.newBlock.2) ∧
        ∃ g₁, rhs? t f ((lhs t' f' g.newBlock.2).startBlock g.newBlock.1) = some g₁ ∧
          g₁ = rhs t f ((lhs t' f' g.newBlock.2).startBlock g.newBlock.1) ∧ Seals W g g₁ := by
    intro t' f' ht' hf'
    obtain ⟨heq, h₁⟩ := hl hnew.shaped ht' hf'
    have hto := (hnew.seals h₁).startBlock (h.notMem (Nat.le_refl _))
    obtain ⟨heq', h₂⟩ := hr hto.shaped (ht.mono hto.length_le) (hf.mono hto.length_le)
    exact ⟨heq, _, heq', rfl, hto.seals h₂⟩
  cases isOr with
  | true =>
    obtain ⟨heq, _, heq', rfl, hseals⟩ := h₁ t g.newBlock.1 (ht.mono hnew.length_le) hmid
    refine ⟨?_, hseals⟩
    simp only [genLogicalCond?, if_true, heq, Option.bind_eq_bind, Option.bind_some]
    exact heq'
  | false =>
    obtain ⟨heq, _, heq', rfl, hseals⟩ := h₁ g.newBlock.1 f hmid (hf.mono hnew.length_le)
    refine ⟨?_, hseals⟩
    simp only [genLogicalCond?, Bool.false_eq_true, if_false, heq, Option.bind_eq_bind,
      Option.bind_some]
    exact heq'

/-- The blocks that set the value of a short-circuit operator. -/
theorem genTruth_adds {W : Finset Nat} {g : IRGen} (res : Nat) {t f e : Nat}
    (h : g.Shaped (insert t (insert f (insert e W)))) (hsealed : g.isSealed = true)
    (ht : t ∉ insert f (insert e W)) (hf : f ∉ insert e W) (he : e ∉ W) (htarget : g.Target e) :
    genTruth? res t f e g = some (genTruth res t f e g) ∧ Adds W g (genTruth res t f e g) := by
  have h₁ := Seals.startBlock ⟨.refl h, hsealed⟩ ht
  have h₂ := h₁.trans (emit_adds h₁.shaped { op := .Mv, dst := some res, a := .imm 1 })
  obtain ⟨heq₃, h₃⟩ := termJmp_seals h₂.shaped (htarget.mono h₂.length_le)
  have h₄ := (h₂.seals h₃).startBlock hf
  have h₅ := h₄.trans (emit_adds h₄.shaped { op := .Mv, dst := some res, a := .imm 0 })
  obtain ⟨heq₆, h₆⟩ := termJmp_seals h₅.shaped (htarget.mono h₅.length_le)
  refine ⟨?_, (h₅.seals h₆).startBlock he⟩
  simp only [genTruth?, emit?_eq h₁.shaped, heq₃, emit?_eq h₄.shaped, heq₆, Option.bind_eq_bind,
    Option.bind_some]
  rfl

/-- Three fresh blocks, waiting in the order of their numbers. -/
theorem newBlocks_adds {W : Finset Nat} {g : IRGen} (h : g.Shaped W) :
    Adds (insert g.blocks.length (insert (g.blocks.length + 1) (insert (g.blocks.length + 2) W))) g
      g.newBlock.2.newBlock.2.newBlock.2 := by
  have h₁ := newBlock_adds h
  have h₂ := newBlock_adds h₁.shaped
  have h₃ := newBlock_adds h₂.shaped
  rw [newBlock_newBlock_length, newBlock_length] at h₃
  rw [Finset.insert_comm _ (g.blocks.length + 2), Finset.insert_comm]
  rw [Finset.insert_comm g.blocks.length]
  exact h₁.trans (h₂.trans h₃)

/-- None of them was waiting before. -/
theorem Shaped.newBlocks_notMem {W : Finset Nat} {g : IRGen} (h : g.Shaped W) :
    g.blocks.length ∉ insert (g.blocks.length + 1) (insert (g.blocks.length + 2) W) ∧
      g.blocks.length + 1 ∉ insert (g.blocks.length + 2) W ∧ g.blocks.length + 2 ∉ W := by
  have hnot : ∀ k, g.blocks.length + k ∉ W := fun k => h.notMem (Nat.le_add_right _ _)
  refine ⟨?_, ?_, hnot 2⟩
  · simpa using hnot 0
  · simpa using hnot 1

theorem newBlocks_target {W : Finset Nat} {g : IRGen} (h : g.Shaped W) {k : Nat} (hk : k < 3) :
    g.newBlock.2.newBlock.2.newBlock.2.Target (g.blocks.length + k) := by
  have hlen := newBlock_newBlock_length g.newBlock.2
  have hlen₁ := newBlock_length g
  exact ⟨Nat.lt_of_lt_of_le (Nat.zero_lt_of_lt h.cur_lt) (Nat.le_add_right _ _), by omega⟩

theorem genLogical_runs {cond? : Nat → Nat → IRGen → Option IRGen}
    {cond : Nat → Nat → IRGen → IRGen} (hc : RunsCond cond? cond) :
    Runs (genLogical? cond?) (genLogical cond) := by
  intro W g h
  have hv := newVreg_adds h
  have h₁ := newBlocks_adds hv.shaped
  obtain ⟨ht, hf, he⟩ := hv.shaped.newBlocks_notMem
  obtain ⟨heq₂, h₂⟩ := hc h₁.shaped (newBlocks_target hv.shaped (k := 0) (by omega))
    (newBlocks_target hv.shaped (k := 1) (by omega))
  have hend := (newBlocks_target hv.shaped (k := 2) (by omega)).mono h₂.length_le
  obtain ⟨heq₃, h₃⟩ := genTruth_adds g.nextVreg h₂.shaped h₂.sealed ht hf he hend
  refine ⟨?_, hv.trans (h₁.trans (h₂.toAdds.trans ?_))⟩
  · simp only [genLogical?, newBlock_fst, newBlock_length, genLogical]
    rw [show g.newVreg.1 = g.nextVreg from rfl]
    simp only [Nat.add_assoc, Option.bind_eq_bind]
    rw [show cond? g.newVreg.2.blocks.length (g.newVreg.2.blocks.length + 1) _ = _ from heq₂]
    simp only [Option.bind_some]
    rw [show genTruth? g.nextVreg g.newVreg.2.blocks.length (g.newVreg.2.blocks.length + 1)
      (g.newVreg.2.blocks.length + (1 + 1)) _ = _ from heq₃]
    rfl
  · simp only [genLogical, newBlock_fst, newBlock_length]
    exact h₃

mutual
/-- **Lowering an expression** passes the checks and keeps the graph in order. -/
theorem genExpr_runs (S : Sema) (e : AExpr) : Runs (genExpr? false S e) (genExpr S e) := by
  intro W g h
  match e with
  | .number note _ =>
    cases hc : note.isConst <;>
      simp only [genExpr?, genExpr, hc, if_true, Bool.false_eq_true, if_false]
    · exact ⟨trivial, .refl h⟩
    · exact ⟨trivial, .refl h⟩
  | .var note _ sym =>
    cases hc : note.isConst <;>
      simp only [genExpr?, genExpr, hc, if_true, Bool.false_eq_true, if_false]
    · exact genVar_runs S sym h
    · exact ⟨trivial, .refl h⟩
  | .binary note op lhs rhs =>
    cases hc : note.isConst <;>
      simp only [genExpr?, genExpr, hc, if_true, Bool.false_eq_true, if_false]
    · exact genBinary_runs op (genExpr_runs S lhs) (genExpr_runs S rhs) h
    · exact ⟨trivial, .refl h⟩
  | .logical note isOr lhs rhs =>
    cases hc : note.isConst <;>
      simp only [genExpr?, genExpr, hc, if_true, Bool.false_eq_true, if_false]
    · exact genLogical_runs (genLogicalCond_runs isOr (genCond_runs S lhs) (genCond_runs S rhs)) h
    · exact ⟨trivial, .refl h⟩
  | .unary note op operand =>
    cases hc : note.isConst <;>
      simp only [genExpr?, genExpr, hc, if_true, Bool.false_eq_true, if_false]
    · exact genUnary_runs op (genExpr_runs S operand) h
    · exact ⟨trivial, .refl h⟩
  | .call note _ args target =>
    cases hc : note.isConst <;>
      simp only [genExpr?, genExpr, hc, if_true, Bool.false_eq_true, if_false]
    · exact genCall_runs target (genArgs_runs S args) h
    · exact ⟨trivial, .refl h⟩
/-- The same for the arguments of a call. -/
theorem genArgs_runs (S : Sema) (es : List AExpr) : Runs (genArgs? false S es) (genArgs S es) := by
  intro W g h
  match es with
  | [] => exact ⟨rfl, .refl h⟩
  | e :: es =>
    obtain ⟨he, h₁⟩ := genExpr_runs S e h
    obtain ⟨hes, h₂⟩ := genArgs_runs S es h₁.shaped
    refine ⟨?_, h₁.trans h₂⟩
    simp only [genArgs?, he, hes, Option.bind_eq_bind, Option.bind_some]
    rfl
/-- The same for a condition. -/
theorem genCond_runs (S : Sema) (e : AExpr) : RunsCond (genCond? false S e) (genCond S e) := by
  intro W g t f h ht hf
  match e with
  | .number note _ =>
    cases hc : note.isConst <;>
      simp only [genCond?, genCond, hc, if_true, Bool.false_eq_true, if_false]
    · exact genBranch_runs (Runs.const (Val.imm 0)) h ht hf
    · exact genConstCond_runs _ h ht hf
  | .var note _ sym =>
    cases hc : note.isConst <;>
      simp only [genCond?, genCond, hc, if_true, Bool.false_eq_true, if_false]
    · exact genBranch_runs (genVar_runs S sym) h ht hf
    · exact genConstCond_runs _ h ht hf
  | .binary note op lhs rhs =>
    cases hc : note.isConst <;>
      simp only [genCond?, genCond, hc, if_true, Bool.false_eq_true, if_false]
    · exact genBranch_runs (genBinary_runs op (genExpr_runs S lhs) (genExpr_runs S rhs)) h ht hf
    · exact genConstCond_runs _ h ht hf
  | .logical note isOr lhs rhs =>
    cases hc : note.isConst <;>
      simp only [genCond?, genCond, hc, if_true, Bool.false_eq_true, if_false]
    · exact genLogicalCond_runs isOr (genCond_runs S lhs) (genCond_runs S rhs) h ht hf
    · exact genConstCond_runs _ h ht hf
  | .unary note op operand =>
    cases hc : note.isConst <;>
      simp only [genCond?, genCond, hc, if_true, Bool.false_eq_true, if_false]
    · cases op with
      | Plus => exact genBranch_runs (genUnary_runs _ (genExpr_runs S operand)) h ht hf
      | Neg => exact genBranch_runs (genUnary_runs _ (genExpr_runs S operand)) h ht hf
      | Not => exact genCond_runs S operand h hf ht
    · exact genConstCond_runs _ h ht hf
  | .call note _ args target =>
    cases hc : note.isConst <;>
      simp only [genCond?, genCond, hc, if_true, Bool.false_eq_true, if_false]
    · exact genBranch_runs (genCall_runs target (genArgs_runs S args)) h ht hf
    · exact genConstCond_runs _ h ht hf
end

/-! ## Lowering statements -/

theorem genAssign_runs (depth : Nat) (S : Sema) (sym : SymId) (value : AExpr) :
    RunsIn depth (genAssign? false S sym value) (genAssign S sym value) := by
  intro W g h _
  obtain ⟨hv, h₁⟩ := genExpr_runs S value h
  unfold genAssign? genAssign
  simp only [hv, Option.bind_eq_bind, Option.bind_some]
  split
  · exact ⟨emit?_eq h₁.shaped _, h₁.trans (emit_adds h₁.shaped _)⟩
  · exact ⟨emit?_eq h₁.shaped _, h₁.trans (emit_adds h₁.shaped _)⟩

theorem genVarDecl_runs (depth : Nat) (S : Sema) (init : AExpr) (sym : SymId) :
    RunsIn depth (genVarDecl? false S init sym) (genVarDecl S init sym) := by
  intro W g h _
  have hv : Adds W g { g.newVreg.2 with irId := (sym, g.newVreg.1) :: g.newVreg.2.irId } :=
    ⟨h.of_blocks rfl rfl rfl h.loops, Nat.le_refl _, rfl⟩
  obtain ⟨he, h₁⟩ := genExpr_runs S init hv.shaped
  refine ⟨?_, hv.trans (h₁.trans (emit_adds h₁.shaped _))⟩
  simp only [genVarDecl?, he, emit?_eq h₁.shaped, Option.bind_eq_bind, Option.bind_some]
  rfl

theorem genIf_runs {depth : Nat} {cond? : Nat → Nat → IRGen → Option IRGen}
    {cond : Nat → Nat → IRGen → IRGen} {then? : IRGen → Option IRGen} {then_ : IRGen → IRGen}
    (hc : RunsCond cond? cond) (ht : RunsIn depth then? then_) :
    RunsIn depth (genIf? cond? then?) (genIf cond then_) := by
  intro W g h hdepth
  have h₁ := newBlock_adds h
  have h₂ := h₁.trans (newBlock_adds h₁.shaped)
  have htarget := newBlock_target h
  have hjoin := newBlock_target h₁.shaped
  rw [newBlock_length, Finset.insert_comm] at h₂
  rw [newBlock_length] at hjoin
  have hnot : ∀ k, g.blocks.length + k ∉ W := fun k => h.notMem (Nat.le_add_right _ _)
  obtain ⟨heq₃, h₃⟩ := hc h₂.shaped
    (htarget.mono (by rw [newBlock_length g.newBlock.2]; exact Nat.le_succ _)) hjoin
  have h₄ := (h₂.seals h₃).startBlock (by simpa using hnot 0)
  obtain ⟨heq₅, h₅⟩ := ht h₄.shaped (by rw [h₄.loops, hdepth])
  obtain ⟨heq₆, h₆⟩ := termJmp_seals h₅.shaped
    (hjoin.mono (Nat.le_trans h₃.length_le h₅.length_le))
  rw [genIf_eq]
  refine ⟨?_, ((h₄.trans h₅).seals h₆).startBlock (hnot 1)⟩
  simp only [genIf?, newBlock_fst, newBlock_length, heq₃, heq₅, heq₆, Option.bind_eq_bind,
    Option.bind_some]

theorem genIfElse_runs {depth : Nat} {cond? : Nat → Nat → IRGen → Option IRGen}
    {cond : Nat → Nat → IRGen → IRGen} {then? else? : IRGen → Option IRGen}
    {then_ else_ : IRGen → IRGen} (hc : RunsCond cond? cond) (ht : RunsIn depth then? then_)
    (he : RunsIn depth else? else_) :
    RunsIn depth (genIfElse? cond? then? else?) (genIfElse cond then_ else_) := by
  intro W g h hdepth
  have h₁ := newBlocks_adds h
  have hjoin := newBlocks_target h (k := 1) (by omega)
  obtain ⟨htBB, hjBB, heBB⟩ := h.newBlocks_notMem
  have hthen : Target _ g.blocks.length := newBlocks_target h (k := 0) (by omega)
  obtain ⟨heq₂, h₂⟩ := hc h₁.shaped hthen (newBlocks_target h (k := 2) (by omega))
  have h₃ := (h₁.seals h₂).startBlock htBB
  obtain ⟨heq₄, h₄⟩ := ht h₃.shaped (by rw [h₃.loops, hdepth])
  have hjoin₄ := hjoin.mono (Nat.le_trans h₂.length_le h₄.length_le)
  obtain ⟨heq₅, h₅⟩ := termJmp_seals h₄.shaped hjoin₄
  -- The other branch is lowered before the block behind both.
  have h₆ := (h₃.trans h₄).seals h₅
  rw [Finset.insert_comm] at h₆
  have h₇ := h₆.startBlock (b := g.blocks.length + 2) (by
    rw [Finset.mem_insert, not_or]
    exact ⟨by omega, heBB⟩)
  obtain ⟨heq₈, h₈⟩ := he h₇.shaped (by rw [h₇.loops, hdepth])
  obtain ⟨heq₉, h₉⟩ := termJmp_seals h₈.shaped
    (hjoin₄.mono (Nat.le_trans h₅.length_le h₈.length_le))
  rw [genIfElse_eq]
  refine ⟨?_, ((h₇.trans h₈).seals h₉).startBlock fun hmem =>
    hjBB (Finset.mem_insert_of_mem hmem)⟩
  simp only [genIfElse?, newBlock_fst, newBlock_length, Nat.add_assoc, Nat.reduceAdd, heq₂, heq₄,
    heq₅, heq₈, heq₉, Option.bind_eq_bind, Option.bind_some]

theorem genWhile_runs {depth : Nat} {cond? : Nat → Nat → IRGen → Option IRGen}
    {cond : Nat → Nat → IRGen → IRGen} {body? : IRGen → Option IRGen} {body : IRGen → IRGen}
    (hc : RunsCond cond? cond) (hb : RunsIn (depth + 1) body? body) :
    RunsIn depth (genWhile? cond? body?) (genWhile cond body) := by
  intro W g h hdepth
  have h₁ := newBlocks_adds h
  have hbody : Target _ g.blocks.length := newBlocks_target h (k := 0) (by omega)
  have hcond := newBlocks_target h (k := 1) (by omega)
  have hafter := newBlocks_target h (k := 2) (by omega)
  obtain ⟨hbBB, hcBB, haBB⟩ := h.newBlocks_notMem
  obtain ⟨heq₂, h₂⟩ := termJmp_seals h₁.shaped hcond
  have h₃ := (h₁.seals h₂).startBlock hbBB
  -- The body is lowered inside the loop.
  have hin : ((g.newBlock.2.newBlock.2.newBlock.2.termJmp (g.blocks.length + 1)).startBlock
      g.blocks.length |>.pushLoop ⟨g.blocks.length + 1, g.blocks.length + 2⟩).Shaped
      (insert (g.blocks.length + 1) (insert (g.blocks.length + 2) W)) := by
    refine h₃.shaped.of_blocks rfl rfl rfl fun l hl => ?_
    rcases List.mem_cons.mp hl with rfl | hl
    · exact ⟨hcond.mono h₂.length_le, hafter.mono h₂.length_le⟩
    · exact h₃.shaped.loops l hl
  obtain ⟨heq₄, h₄⟩ := hb hin (by rw [pushLoop, List.length_cons, h₃.loops, hdepth])
  have hle₄ := Nat.le_trans h₂.length_le h₄.length_le
  obtain ⟨heq₅, h₅⟩ := termJmp_seals h₄.shaped (hcond.mono hle₄)
  have hle₅ := Nat.le_trans hle₄ h₅.length_le
  have h₆ := (h₃.seals (h₄.seals h₅).popLoop).startBlock hcBB
  obtain ⟨heq₇, h₇⟩ := hc h₆.shaped (hbody.mono hle₅) (hafter.mono hle₅)
  rw [genWhile_eq]
  refine ⟨?_, (h₆.seals h₇).startBlock haBB⟩
  simp only [genWhile?, newBlock_fst, newBlock_length, Nat.add_assoc, Nat.reduceAdd, heq₂,
    Option.bind_eq_bind, Option.bind_some]
  rw [show body? (((g.newBlock.2.newBlock.2.newBlock.2.termJmp (g.blocks.length + 1)).pushLoop
    ⟨g.blocks.length + 1, g.blocks.length + 2⟩).startBlock g.blocks.length) = _ from heq₄]
  simp only [Option.bind_some, heq₅, heq₇]

/-- A loop there is to leave. -/
theorem exitLoop_runs {depth : Nat} (hdepth : depth ≠ 0) (target : Loop → Nat)
    (htarget : target = Loop.breakBB ∨ target = Loop.continueBB) :
    RunsIn depth (fun g => g.exitLoop? target) fun g => g.termJmp (target (g.loops.headD default)) := by
  intro W g h hlen
  cases hl : g.loops with
  | nil => exact absurd (by rw [← hlen, hl]; rfl) hdepth
  | cons l ls =>
    have hloop := h.loops l (by rw [hl]; exact List.mem_cons_self)
    have htarget : g.Target (target l) := by
      rcases htarget with rfl | rfl
      · exact hloop.2
      · exact hloop.1
    obtain ⟨heq, hseals⟩ := termJmp_seals h htarget
    simp only [exitLoop?, hl, List.head?_cons, List.headD_cons, Option.bind_eq_bind,
      Option.bind_some]
    exact ⟨heq, hseals.toAdds⟩

mutual
/-- **Lowering an analysed statement** passes the checks and keeps the graph in order. -/
theorem genStmt_runs {A S S' : Sema} {s : Stmt} {s' : AStmt}
    (h : analyzeStmt S s = .ok (s', S')) :
    RunsIn S.loopDepth (genStmt? false A s') (genStmt A s') := by
  intro W g hg hdepth
  match s with
  | .block _ ss =>
    simp only [analyzeStmt, bind_eq_ok, Prod.exists] at h
    obtain ⟨ss', S₁, hss, h⟩ := h
    cases h
    exact genStmts_runs hss hg hdepth
  | .empty _ =>
    cases h
    exact ⟨rfl, .refl hg⟩
  | .exprStmt _ e =>
    simp only [analyzeStmt, bind_eq_ok] at h
    obtain ⟨e', -, h⟩ := h
    cases h
    obtain ⟨heq, hadds⟩ := genExpr_runs A e' hg
    refine ⟨?_, hadds⟩
    simp only [genStmt?, genStmt, Bool.false_and, heq, Option.bind_eq_bind, Option.bind_some]
  | .assign line x value =>
    simp only [analyzeStmt, bind_eq_ok] at h
    obtain ⟨s₁, hs₁, h⟩ := h
    cases h
    unfold analyzeAssign at hs₁
    split at hs₁
    · cases hs₁
    · split at hs₁
      · cases hs₁
      · simp only [bind_eq_ok] at hs₁
        obtain ⟨value', -, hs₁⟩ := hs₁
        cases hs₁
        exact genAssign_runs _ A _ value' hg hdepth
  | .varDecl line isConst x init =>
    simp only [analyzeStmt, analyzeVarDecl, bind_eq_ok] at h
    obtain ⟨init', -, h⟩ := h
    split at h
    · split at h
      · cases h
      · cases h
        exact ⟨rfl, .refl hg⟩
    · cases h
      exact genVarDecl_runs _ A init' _ hg hdepth
  | .ifStmt _ cond then_ none =>
    simp only [analyzeStmt, bind_eq_ok, Prod.exists] at h
    obtain ⟨cond', -, then', S₁, hthen, h⟩ := h
    cases h
    simp only [genStmt?, genStmt]
    split
    · split
      · exact genStmt_runs hthen hg hdepth
      · exact ⟨rfl, .refl hg⟩
    · exact genIf_runs (genCond_runs A cond') (genStmt_runs hthen) hg hdepth
  | .ifStmt _ cond then_ (some else_) =>
    simp only [analyzeStmt, bind_eq_ok, Prod.exists] at h
    obtain ⟨cond', -, then', S₁, hthen, else', S₂, helse, h⟩ := h
    cases h
    have helse := genStmt_runs (A := A) helse
    rw [(analyzeStmt_grows hthen).loopDepth] at helse
    simp only [genStmt?, genStmt]
    split
    · split
      · exact genStmt_runs hthen hg hdepth
      · exact helse hg hdepth
    · exact genIfElse_runs (genCond_runs A cond') (genStmt_runs hthen) helse hg hdepth
  | .whileStmt _ cond body =>
    simp only [analyzeStmt, bind_eq_ok, Prod.exists] at h
    obtain ⟨cond', -, body', S₁, hbody, h⟩ := h
    cases h
    exact genWhile_runs (genCond_runs A cond') (genStmt_runs hbody) hg hdepth
  | .breakStmt line =>
    simp only [analyzeStmt] at h
    split at h
    · cases h
    · rename_i hne
      cases h
      exact exitLoop_runs hne Loop.breakBB (.inl rfl) hg hdepth
  | .continueStmt line =>
    simp only [analyzeStmt] at h
    split at h
    · cases h
    · rename_i hne
      cases h
      exact exitLoop_runs hne Loop.continueBB (.inr rfl) hg hdepth
  | .returnStmt _ none =>
    cases h
    obtain ⟨heq, hseals⟩ := termRet_seals hg false (.imm 0)
    exact ⟨heq, hseals.toAdds⟩
  | .returnStmt _ (some value) =>
    simp only [analyzeStmt, bind_eq_ok] at h
    obtain ⟨value', -, h⟩ := h
    cases h
    obtain ⟨heq, h₁⟩ := genExpr_runs A value' hg
    obtain ⟨heq', h₂⟩ := termRet_seals h₁.shaped true (genExpr A value' g).1
    refine ⟨?_, h₁.trans h₂.toAdds⟩
    simp only [genStmt?, heq, Option.bind_eq_bind, Option.bind_some]
    exact heq'
/-- The same for the statements of a block. -/
theorem genStmts_runs {A S S' : Sema} {ss : List Stmt} {ss' : List AStmt}
    (h : analyzeStmts S ss = .ok (ss', S')) :
    RunsIn S.loopDepth (genStmts? false A ss') (genStmts A ss') := by
  intro W g hg hdepth
  match ss with
  | [] =>
    cases h
    exact ⟨rfl, .refl hg⟩
  | s :: ss =>
    simp only [analyzeStmts, bind_eq_ok, Prod.exists] at h
    obtain ⟨s', S₁, hs, ss', S₂, hss, h⟩ := h
    cases h
    obtain ⟨heq, h₁⟩ := genStmt_runs (A := A) hs hg hdepth
    have hss := genStmts_runs (A := A) hss
    rw [(analyzeStmt_grows hs).loopDepth] at hss
    obtain ⟨heq', h₂⟩ := hss h₁.shaped (by rw [h₁.loops, hdepth])
    refine ⟨?_, h₁.trans h₂⟩
    simp only [genStmts?, heq, Option.bind_eq_bind, Option.bind_some]
    exact heq'
end

/-! ## Functions and modules -/

end IRGen

/-- **A control flow graph in order.** -/
structure IRFunc.GraphOk (F : IRFunc) : Prop where
  nonempty : F.blocks ≠ []
  ids : F.blocks.map (·.id) = List.range F.blocks.length
  ended : ∀ bb ∈ F.blocks, bb.term = .Jmp ∨ bb.term = .Br ∨ bb.term = .Ret
  succs : ∀ bb ∈ F.blocks, ∀ s ∈ succsOf bb, s < F.blocks.length
  entry : ∀ bb ∈ F.blocks, 0 ∉ succsOf bb
  preds : ∀ b < F.blocks.length, ∀ p,
    (F.blockAt b).preds.count p = (succsOf (F.blockAt p)).count b

/-- The entries of one block in the list of predecessors. -/
theorem count_edges (bb : BasicBlock) (b p : Nat) :
    (((succsOf bb).filter (· == b)).map fun _ => bb.id).count p =
      if bb.id = p then (succsOf bb).count b else 0 := by
  rw [List.map_const', List.count_replicate, ← List.count_eq_length_filter]
  simp only [beq_iff_eq]

/-- The predecessor lists of blocks that are numbered from `k` on. -/
theorem count_predsOf_range' {blocks : List BasicBlock} {k : Nat}
    (hids : blocks.map (·.id) = List.range' k blocks.length) (b p : Nat) :
    (predsOf blocks b).count p =
      if k ≤ p then (succsOf (blocks.getD (p - k) {})).count b else 0 := by
  induction blocks generalizing k with
  | nil => simp [predsOf, succsOf]
  | cons bb blocks ih =>
    rw [List.map_cons, List.length_cons, List.range'_succ, List.cons.injEq] at hids
    obtain ⟨hid, hids⟩ := hids
    have hrest := ih hids
    rw [show predsOf (bb :: blocks) b =
      (((succsOf bb).filter (· == b)).map fun _ => bb.id) ++ predsOf blocks b from rfl,
      List.count_append, count_edges, hrest, hid]
    rcases Nat.lt_trichotomy p k with hlt | rfl | hlt
    · rw [if_neg (by omega), if_neg (by omega), if_neg (by omega)]
    · rw [if_pos rfl, if_neg (by omega), if_pos (Nat.le_refl _), Nat.sub_self]
      rfl
    · rw [if_neg (by omega), if_pos (by omega), if_pos (by omega),
        show p - k = (p - (k + 1)) + 1 by omega, List.getD_cons_succ, Nat.zero_add]

/-- **The predecessor lists** have an entry for each edge. -/
theorem count_predsOf {blocks : List BasicBlock}
    (hids : blocks.map (·.id) = List.range blocks.length) (b p : Nat) :
    (predsOf blocks b).count p = (succsOf (blocks.getD p {})).count b := by
  rw [count_predsOf_range' (k := 0) (by rw [hids, List.range_eq_range']), if_pos (Nat.zero_le p),
    Nat.sub_zero]

namespace IRGen

open Sema

/-- What is left when nothing is waiting, and the last block is sealed. -/
theorem Shaped.graphOk {g : IRGen} (h : g.Shaped ∅) (hsealed : g.isSealed = true) {F : IRFunc}
    (hF : F.blocks = g.blocks) : (computeCFG F).GraphOk := by
  have hlen : (computeCFG F).blocks.length = g.blocks.length := by simp [computeCFG, hF]
  have hblock : ∀ b, b < g.blocks.length →
      (computeCFG F).blockAt b = { g.blockAt b with preds := predsOf g.blocks b } := by
    intro b hb
    simp [IRFunc.blockAt, IRGen.blockAt, computeCFG, hF, hb]
  have hat : ∀ bb ∈ (computeCFG F).blocks, ∃ b < g.blocks.length,
      bb = { g.blockAt b with preds := predsOf g.blocks b } := by
    intro bb hbb
    obtain ⟨b, hb, rfl⟩ := List.mem_mapIdx.mp hbb
    exact ⟨b, hF ▸ hb, by simp [IRGen.blockAt, ← hF, hb]⟩
  have hids : g.blocks.map (·.id) = List.range g.blocks.length := by
    refine List.ext_getElem (by simp) fun b hb _ => ?_
    have hb : b < g.blocks.length := by simpa using hb
    simpa [IRGen.blockAt, hb] using h.ids b hb
  refine ⟨?_, ?_, ?_, ?_, ?_, ?_⟩
  · exact List.ne_nil_of_length_pos (hlen ▸ Nat.zero_lt_of_lt h.cur_lt)
  · rw [hlen, ← hids]
    refine List.ext_getElem (by simp [hlen]) fun b hb _ => ?_
    simp [computeCFG, hF]
  · intro bb hbb
    obtain ⟨b, hb, rfl⟩ := hat bb hbb
    have hne := h.ended b hb (Finset.notMem_empty b) (.inr hsealed)
    show (g.blockAt b).term = .Jmp ∨ (g.blockAt b).term = .Br ∨ (g.blockAt b).term = .Ret
    cases ht : (g.blockAt b).term with
    | None => exact absurd ht hne
    | Jmp => exact .inl rfl
    | Br => exact .inr (.inl rfl)
    | Ret => exact .inr (.inr rfl)
  · intro bb hbb s hs
    obtain ⟨b, hb, rfl⟩ := hat bb hbb
    exact hlen ▸ (h.succs b hb s hs).2
  · intro bb hbb hs
    obtain ⟨b, hb, rfl⟩ := hat bb hbb
    exact Nat.lt_irrefl _ (h.succs b hb 0 hs).1
  · intro b hb p
    rw [hblock b (hlen ▸ hb)]
    show (predsOf g.blocks b).count p = _
    rw [count_predsOf hids]
    by_cases hp : p < g.blocks.length
    · rw [hblock p hp]
      rfl
    · have hp := Nat.le_of_not_lt hp
      rw [IRFunc.blockAt, List.getD_eq_getElem?_getD, List.getD_eq_getElem?_getD,
        List.getElem?_eq_none hp, List.getElem?_eq_none (hlen ▸ hp)]

theorem finish_runs {g : IRGen} (h : g.Shaped ∅) :
    (if g.isSealed then some g
      else if g.curReturnsVoid then g.termRet? false (.imm 0)
      else g.termRet? true (.imm 0)) = some g.finish ∧
      g.finish.Shaped ∅ ∧ g.finish.isSealed = true := by
  unfold finish
  cases hs : g.isSealed with
  | true => exact ⟨rfl, h, hs⟩
  | false =>
    cases g.curReturnsVoid with
    | true =>
      obtain ⟨heq, hseals⟩ := termRet_seals h false (.imm 0)
      exact ⟨heq, hseals.shaped, hseals.sealed⟩
    | false =>
      obtain ⟨heq, hseals⟩ := termRet_seals h true (.imm 0)
      exact ⟨heq, hseals.shaped, hseals.sealed⟩

/-- The generator at the entry of a function. -/
theorem entry_shaped (ps : List (String × SymId)) (returnsVoid : Bool) :
    (genParams ps (entry returnsVoid)).2.Shaped ∅ ∧
      (genParams ps (entry returnsVoid)).2.loops = [] := by
  rw [genParams_snd]
  refine ⟨⟨Nat.zero_lt_one, fun _ => rfl, fun b hb => absurd hb (Finset.notMem_empty b), ?_, ?_, ?_,
    fun l hl => absurd hl List.not_mem_nil⟩, rfl⟩
  · intro b hb
    obtain rfl : b = 0 := Nat.lt_one_iff.mp hb
    rfl
  · intro b hb _ hne
    obtain rfl : b = 0 := Nat.lt_one_iff.mp hb
    exact absurd rfl (hne.resolve_right Bool.false_ne_true)
  · intro b hb s hs
    obtain rfl : b = 0 := Nat.lt_one_iff.mp hb
    cases hs

/-- **A function** is lowered without a failed check, to a graph in order. -/
theorem genFunc_runs {A S S' : Sema} {fn : FuncDef} {fn' : AFuncDef}
    (h : analyzeFunc S fn = .ok (fn', S')) (hdepth : S.loopDepth = 0) :
    genFunc? false A fn' = some (genFunc A fn') ∧ (genFunc A fn').GraphOk := by
  simp only [analyzeFunc, bind_eq_ok, Prod.exists] at h
  obtain ⟨body, S₁, hbody, h⟩ := h
  cases h
  have hbody := genStmt_runs (A := A) hbody
  rw [(declareParams_grows S.pushScope fn.params).loopDepth] at hbody
  replace hbody : RunsIn 0 _ _ := hdepth ▸ hbody
  obtain ⟨hentry, hloops⟩ := entry_shaped (declareParams S.pushScope fn.params).1 fn.returnsVoid
  obtain ⟨heq, hadds⟩ := hbody hentry (by rw [hloops]; rfl)
  obtain ⟨heq', hshaped, hsealed⟩ := finish_runs hadds.shaped
  unfold genFunc? genFunc genBody?
  simp only [genBody_eq, genParams_entry, heq, heq', Option.bind_eq_bind, Option.bind_some]
  exact ⟨trivial, hshaped.graphOk hsealed rfl⟩

theorem registerItems_loopDepth {items : List TopLevel} :
    ∀ {S S' : Sema} {index : Nat} {regs : List Registered},
      registerItems S index items = .ok (regs, S') → S'.loopDepth = S.loopDepth := by
  induction items with
  | nil =>
    intro S S' index regs h
    cases h
    rfl
  | cons item items ih =>
    intro S S' index regs h
    cases item with
    | global g =>
      simp only [registerItems, bind_eq_ok, Prod.exists] at h
      obtain ⟨g', S₁, hg, regs₁, S₂, hitems, h⟩ := h
      cases h
      obtain ⟨e, sym, -, -, -, -, -, -, -, hdepth, -⟩ := analyzeGlobal_ok hg
      exact (ih hitems).trans hdepth
    | func fn =>
      simp only [registerItems, bind_eq_ok, Prod.exists] at h
      obtain ⟨S₁, hf, regs₁, S₂, hitems, h⟩ := h
      cases h
      obtain ⟨-, rfl⟩ := registerFunc_ok hf
      have hdepth := ih hitems
      exact hdepth

/-- The functions of a module whose bodies were analysed. -/
theorem genFuncs_runs {A S₀ S₁ : Sema} (hdepth : S₀.loopDepth = 0) {regs : List Registered}
    {items : List ATopLevel} (h : List.Forall₂ (Analyzed S₀ S₁) regs items) :
    genFuncs? false A items = some (genFuncs A items) ∧ ∀ F ∈ genFuncs A items, F.GraphOk := by
  induction h with
  | nil => exact ⟨rfl, fun F hF => absurd hF List.not_mem_nil⟩
  | cons hitem _ ih =>
    obtain ⟨heq, hall⟩ := ih
    cases hitem with
    | global g => exact ⟨heq, hall⟩
    | func grows body later =>
      obtain ⟨heq', hok⟩ := genFunc_runs (A := A) body (grows.loopDepth.trans hdepth)
      simp only [genFuncs?, genFuncs, heq, heq', Option.bind_eq_bind, Option.bind_some]
      refine ⟨trivial, fun F hF => ?_⟩
      rcases List.mem_cons.mp hF with rfl | hF
      · exact hok
      · exact hall F hF

/-- **Generated control flow graphs are well formed.** Lowering an accepted module passes every
check: no instruction and no terminator goes to a block that has its terminator, and no `break` or
`continue` finds the stack of loops empty. And every function is a control flow graph in order. -/
theorem generate_graphOk {m : Module} {m' : AModule} {A : Sema} (h : analyze m = .ok (m', A)) :
    generate? false A m' = some (generate A m') ∧ ∀ F ∈ (generate A m').funcs, F.GraphOk := by
  obtain ⟨regs, S₀, S₁, hregs, -, -, hall, -, rfl⟩ := analyze_ok h
  obtain ⟨heq, hok⟩ := genFuncs_runs (A := S₁.popScope) (registerItems_loopDepth hregs) hall
  refine ⟨?_, hok⟩
  simp only [generate?, heq, Option.bind_eq_bind, Option.bind_some]
  rfl

/-- The graphs of a module with a `break` in a loop. -/
theorem breakModule_graphOk :
    ∃ m' A, analyze breakModule = .ok (m', A) ∧
      ∃ F ∈ (generate A m').funcs, F.name = "main" ∧ F.GraphOk :=
  ⟨_, _, rfl, _, .tail _ (.head _), rfl,
    (generate_graphOk (m := breakModule) rfl).2 _ (.tail _ (.head _))⟩

end IRGen

end ToyC
