import ToyC.OptJumps
import ToyC.OptSteps
import ToyC.RegAllocSound

/-!
# The optimized code between blocks

The code of a block ends where the three-address code goes: at the label of the successor, which
it may fall into, or at a return, with the returned value in `a0`. A comparison that is part of the
branch is never computed, so its vreg does not hold its value afterwards; but a vreg that is
read once, by that branch, is not live behind it (`not_liveAt_of_useCount`).
-/

namespace ToyC

open Rv32

namespace OptCodeGen

open NaiveCodeGen (HoldsGlobals)

/-! ## A vreg that is read once -/

section Once

variable {F : IRFunc} {b d : Nat}

/-- **The one read of a vreg** is that of a terminator: no instruction reads it, and no other
terminator. -/
theorem notMem_uses_of_useCount (hb : b < F.blocks.length) (hterm : d ∈ (F.blockAt b).termUses)
    (huse : useCount F d = 1) (b' : Nat) :
    (∀ inst ∈ (F.blockAt b').insts, d ∉ inst.uses) ∧
      (b' ≠ b → d ∉ (F.blockAt b').termUses) := by
  unfold useCount at huse
  rw [F.blocks_eq hb, List.flatMap_append, List.flatMap_cons, List.count_append,
    List.count_append, List.count_append] at huse
  have hpos := List.count_pos_iff.mpr hterm
  have hnone : ∀ {bbs : List BasicBlock}, (bbs.flatMap fun bb =>
      bb.insts.flatMap Inst.uses ++ bb.termUses).count d = 0 → ∀ bb ∈ bbs,
      (∀ inst ∈ bb.insts, d ∉ inst.uses) ∧ d ∉ bb.termUses := by
    intro bbs hcount bb hbb
    have hnot := List.count_eq_zero.mp hcount
    constructor
    · exact fun inst hi hd => hnot (List.mem_flatMap.mpr ⟨bb, hbb, List.mem_append_left _
        (List.mem_flatMap.mpr ⟨inst, hi, hd⟩)⟩)
    · exact fun hd => hnot (List.mem_flatMap.mpr ⟨bb, hbb, List.mem_append_right _ hd⟩)
  rcases Nat.lt_trichotomy b' b with hlt | rfl | hlt
  · have hmem : F.blockAt b' ∈ F.blocks.take b := by
      refine List.mem_of_getElem? (i := b') ?_
      rw [List.getElem?_take_of_lt hlt, IRFunc.getElem?_blocks (hlt.trans hb)]
    obtain ⟨hinsts, hterms⟩ := hnone (by omega) _ hmem
    exact ⟨hinsts, fun _ => hterms⟩
  · have hzero : ((F.blockAt b').insts.flatMap Inst.uses).count d = 0 := by omega
    have hnot := List.count_eq_zero.mp hzero
    exact ⟨fun inst hi hd => hnot (List.mem_flatMap.mpr ⟨inst, hi, hd⟩), fun h => absurd rfl h⟩
  · by_cases hb' : b' < F.blocks.length
    · have hmem : F.blockAt b' ∈ F.blocks.drop (b + 1) := by
        refine List.mem_of_getElem? (i := b' - (b + 1)) ?_
        rw [List.getElem?_drop, Nat.add_sub_cancel' hlt, IRFunc.getElem?_blocks hb']
      obtain ⟨hinsts, hterms⟩ := hnone (by omega) _ hmem
      exact ⟨hinsts, fun _ => hterms⟩
    · rw [IRFunc.blockAt_of_ge hb']
      simp [BasicBlock.termUses]

/-- **It is not live behind the block** that computes it last and reads it in its terminator. -/
theorem not_liveAt_of_useCount (hb : b < F.blocks.length) {insts : List Inst} {last : Inst}
    (hinsts : (F.blockAt b).insts = insts ++ [last]) (hd : last.dst = some d)
    (hterm : d ∈ (F.blockAt b).termUses) (huse : useCount F d = 1) (s : Nat) :
    ¬ F.LiveAt s (F.blockAt s).insts d := by
  -- On the way to a read, the block is left behind its last instruction, which writes the vreg.
  have hwalk : ∀ {b' rest v}, F.LiveAt b' rest v → v = d → rest <:+ (F.blockAt b').insts →
      (b' = b → rest ≠ []) → False := by
    intro b' rest v hlive
    induction hlive with
    | @read b' inst rest v h =>
      rintro rfl hsuffix -
      exact (notMem_uses_of_useCount hb hterm huse b').1 inst
        (hsuffix.mem List.mem_cons_self) h
    | @pass b' inst rest v h _ ih =>
      rintro rfl hsuffix hne
      refine ih rfl ((List.suffix_cons inst rest).trans hsuffix) ?_
      rintro rfl rfl
      obtain ⟨t, ht⟩ := hsuffix
      rw [hinsts] at ht
      obtain rfl := List.singleton_injective (List.append_inj_right' ht rfl)
      exact h hd
    | @term b' v h =>
      rintro rfl - hne
      exact (notMem_uses_of_useCount hb hterm huse b').2 (fun h => hne h rfl) h
    | @succ b' s v hs _ ih =>
      rintro rfl - -
      refine ih rfl List.suffix_rfl ?_
      rintro rfl
      rw [hinsts]
      simp
  refine fun hlive => hwalk hlive rfl List.suffix_rfl ?_
  rintro rfl
  rw [hinsts]
  simp

end Once

/-! ## Branches -/

section Branches

variable {img : Image} {fr : Frame} {A : Allocation} {σ : Data} {i : Nat} {items : List Item}
  {via : State → State → Prop}

/-- **The comparison of a branch** is one branch instruction behind its operands, whose condition
is that of the comparison or the opposite. -/
theorem emitBranchCmp_eq {op : Op} (hop : isCmp op = true) (a b : Val) (l : String)
    (negate : Bool) :
    ∃ (c : Cmp) (x y : XReg), emitBranchCmp fr A op a b l negate =
        (toReg fr A a scratch0).1 ++ (toReg fr A b scratch1).1 ++ [.branch c x y l] ∧
      ∀ σ : Data, c.eval (σ.get x) (σ.get y) = (Word.truthy (op.eval
        (σ.get (toReg fr A a scratch0).2) (σ.get (toReg fr A b scratch1).2)) != negate) := by
  unfold emitBranchCmp
  obtain ⟨loadA, ra⟩ := toReg fr A a scratch0
  obtain ⟨loadB, rb⟩ := toReg fr A b scratch1
  cases op with
  | Lt | Gt | Le | Ge | Eq | Ne =>
    cases negate
    all_goals
      refine ⟨_, _, _, rfl, fun σ => ?_⟩
      simp [Cmp.eval, Op.eval, bne]
  | _ => cases hop

/-- **Both operands of a comparison.** -/
theorem operands_does {sym : String → BitVec 32} {a b : Val} (h : SlotsAligned fr σ)
    (ha : ValLocated A a) (hb : ValLocated A b) :
    Does sym ((toReg fr A a scratch0).1 ++ (toReg fr A b scratch1).1) σ fun σ' =>
      σ'.mem = σ.mem ∧ σ'.get (toReg fr A a scratch0).2 = a.eval (locs fr A σ) ∧
        σ'.get (toReg fr A b scratch1).2 = b.eval (locs fr A σ) ∧ Keeps scratches σ σ' := by
  have hra6 : (toReg fr A a scratch0).2 ≠ scratch1 :=
    toReg_ne ha (by decide) (by decide) (by decide)
  have hra7 : (toReg fr A a scratch0).2 ≠ XReg.a7 :=
    toReg_ne ha (by decide) (by decide) (by decide)
  refine Does.append (toReg_leaves h (by decide)) fun σ₁ ⟨hmem₁, hv₁, hk₁⟩ => ?_
  refine Does.mono (toReg_leaves (h.of_keeps hk₁ (by decide)) (by decide))
    fun σ₂ ⟨hmem₂, hv₂, hk₂⟩ => ⟨hmem₂.trans hmem₁, ?_, ?_, ?_⟩
  · exact (hk₂ _ (by simp [hra6, hra7])).trans hv₁
  · rwa [eval_of_keeps hb hmem₁ (hk₁.mono (by decide))] at hv₂
  · exact (hk₁.mono (by decide)).trans (hk₂.mono (by decide))

/-- What a branch does: it is at its label or behind the branch. -/
def Branched (img : Image) (items : List Item) (t : Nat) (taken : Bool) (σ : Data) (s : State) :
    Prop :=
  (if taken then s.pc = t else img.At s.pc items) ∧ s.data.mem = σ.mem ∧
    Keeps scratches σ s.data

/-- **A comparison that is part of a branch.** -/
theorem branchCmp_steps (hvia : img.Follows via) {op : Op} (hop : isCmp op = true) {a b : Val}
    {l : String} {negate : Bool}
    (h : SlotsAligned fr σ) (ha : ValLocated A a) (hb : ValLocated A b) {t : Nat}
    (ht : img.target l = some t)
    (hat : img.At i ((emitBranchCmp fr A op a b l negate).map .instr ++ items)) :
    ∃ s, via ⟨i, σ⟩ s ∧ Branched img items t
      (Word.truthy (op.eval (a.eval (locs fr A σ)) (b.eval (locs fr A σ))) != negate) σ s := by
  obtain ⟨c, x, y, hcode, hcond⟩ := emitBranchCmp_eq (A := A) hop a b l negate
  obtain ⟨σ', hexecs, hmem, hva, hvb, hk⟩ := operands_does h ha hb
  rw [hcode, List.map_append, List.append_assoc] at hat
  obtain ⟨hsteps, hat'⟩ := hvia.execs hat hexecs
  have hc := hcond σ'
  rw [hva, hvb] at hc
  cases htaken : Word.truthy (op.eval (a.eval (locs fr A σ)) (b.eval (locs fr A σ))) != negate with
  | true =>
    rw [htaken] at hc
    exact ⟨_, hvia.trans hsteps (hvia.branch hat' ht hc), rfl, hmem, hk⟩
  | false =>
    rw [htaken] at hc
    exact ⟨_, hvia.trans hsteps (hvia.branch_not hat' hc), hat'.tail, hmem, hk⟩

/-- **A branch on a value.** -/
theorem branchVal_steps (hvia : img.Follows via) {v : Val} {c : Cmp} {l : String} {taken : Bool}
    (h : SlotsAligned fr σ)
    (hc : c.eval (v.eval (locs fr A σ)) 0#32 = taken) {t : Nat} (ht : img.target l = some t)
    (hat : img.At i (((toReg fr A v scratch0).1 ++
      [Instr.branch c (toReg fr A v scratch0).2 0 l]).map .instr ++ items)) :
    ∃ s, via ⟨i, σ⟩ s ∧ Branched img items t taken σ s := by
  obtain ⟨σ', hexecs, hmem, hv, hk⟩ := toReg_leaves (v := v) h
    (by decide : scratch0 ≠ 0)
  rw [List.map_append, List.append_assoc] at hat
  obtain ⟨hsteps, hat'⟩ := hvia.execs hat hexecs
  have hk := hk.mono (by decide : ∀ x ∈ [scratch0, XReg.a7], x ∈ scratches)
  rw [← hv] at hc
  cases taken with
  | true => exact ⟨_, hvia.trans hsteps (hvia.branch hat' ht hc), rfl, hmem, hk⟩
  | false => exact ⟨_, hvia.trans hsteps (hvia.branch_not hat' hc), hat'.tail, hmem, hk⟩

end Branches

/-! ## Terminators -/

/-- **Where the machine is at the end of a block**, for what the terminator does: at the label of
the block to go on with, which it matches, or at a return, with the value in `a0`. -/
def GoesOn (img : Image) (m : IRModule) (A : Allocation) (F : IRFunc) (b : BitVec 32) (s : State) :
    Outcome (Config ⊕ CallResult) → Prop
  | .ok (.inl c) => img.target (F.label c.block) = some s.pc ∧ Holds img m A F b c s.data
  | .ok (.inr (v, G)) => img.items[s.pc]? = some (.instr .ret) ∧
      (∀ w, v = some w → s.data.get XReg.a0 = w) ∧ HoldsGlobals m img G s.data.mem
  | _ => False

section Terminators

variable {img : Image} {m : IRModule} {opt : Bool} {A : Allocation} {F : IRFunc} {b : BitVec 32}
  {blk : Nat} {bs bs' : List Nat} {R : Regs} {G : Globals} {σ : Data} {i : Nat}
  {via : State → State → Prop}

/-- A successor is entered with the same values. -/
theorem Holds.enter (h : Holds img m A F b ⟨blk, [], R, G⟩ σ) {s : Nat}
    (hs : s ∈ succsOf (F.blockAt blk)) (hlt : s < F.blocks.length) :
    Holds img m A F b (F.start s R G) σ :=
  ⟨hlt, ⟨[], rfl⟩, h.sp, fun v hv => h.live v (.succ hs hv), h.globals⟩

/-- **A successor is entered without the last instruction**, whose vreg is not live there. -/
theorem Holds.enter_without {last : Inst} (h : Holds img m A F b ⟨blk, [last], R, G⟩ σ) {d : Nat}
    (hd : last.dst = some d) {s : Nat} (hs : s ∈ succsOf (F.blockAt blk))
    (hlt : s < F.blocks.length) (hdead : ¬ F.LiveAt s (F.blockAt s).insts d) (w : Word) :
    Holds img m A F b (F.start s (R.set d w) G) σ := by
  refine ⟨hlt, ⟨[], rfl⟩, h.sp, fun v hv => ?_, h.globals⟩
  have hvd : v ≠ d := by
    rintro rfl
    exact hdead hv
  show _ = R.set d w v
  rw [R.set_of_ne w hvd]
  exact h.live v (.pass (by rw [hd]; exact fun h => hvd (Option.some.inj h).symm) (.succ hs hv))

/-- An emitted block has its label somewhere. -/
theorem FuncAt.target (hf : FuncAt img m opt A F) {s : Nat} (hs : s ∈ order F) :
    ∃ t, img.target (F.label s) = some t := by
  obtain ⟨bs, bs', horder⟩ := List.append_of_mem hs
  obtain ⟨t, ht, -⟩ := hf.block horder
  exact ⟨t, ht⟩

/-- **Behind a block stands the label of the next one.** -/
theorem FuncAt.falls (hf : FuncAt img m opt A F) (horder : order F = bs ++ blk :: bs') {s : Nat}
    (hs : some s = bs'.head?)
    (hat : img.At i (emitBlocks m opt (frameOf A F) A F bs')) : img.target (F.label s) = some i := by
  obtain ⟨ss, rfl⟩ : ∃ ss, bs' = s :: ss := by
    cases bs' with
    | nil => cases hs
    | cons s' ss =>
      obtain rfl := Option.some.inj hs
      exact ⟨ss, rfl⟩
  have hmem : s ∈ order F := by
    rw [horder]
    simp
  unfold emitBlocks emitBlock at hat
  rw [IRFunc.blockAt_id hf.ids (mem_order_lt hmem)] at hat
  exact hat.target (hf.once s hmem)

/-- **A jump**, which is left out where the block comes next. -/
theorem FuncAt.jump (hvia : img.Follows via) (hf : FuncAt img m opt A F)
    (horder : order F = bs ++ blk :: bs') {s : Nat}
    (hs : s ∈ order F)
    (hat : img.At i ((if some s ≠ bs'.head? then [Instr.j (F.label s)] else []).map .instr ++
      emitBlocks m opt (frameOf A F) A F bs')) :
    ∃ t, img.target (F.label s) = some t ∧ via ⟨i, σ⟩ ⟨t, σ⟩ := by
  split at hat
  · obtain ⟨t, ht⟩ := hf.target hs
    exact ⟨t, ht, hvia.j hat ht σ⟩
  · rename_i hnext
    exact ⟨i, hf.falls horder (not_not.mp hnext) hat, hvia.refl _⟩

/-- **A branch**, in the three shapes it has: the block that comes next is fallen into, if it is
one of the two. -/
theorem FuncAt.branches (hvia : img.Follows via) (hf : FuncAt img m opt A F)
    (horder : order F = bs ++ blk :: bs')
    {s₀ s₁ : Nat} (hs₀ : s₀ ∈ order F) (hs₁ : s₁ ∈ order F) (code : String → Bool → List Instr)
    (cond : Bool)
    (hcode : ∀ {l negate t items}, img.target l = some t →
      img.At i ((code l negate).map .instr ++ items) →
      ∃ s, via ⟨i, σ⟩ s ∧ Branched img items t (cond != negate) σ s)
    (hat : img.At i ((if some s₁ = bs'.head? then code (F.label s₀) false
      else if some s₀ = bs'.head? then code (F.label s₁) true
      else code (F.label s₀) false ++ [.j (F.label s₁)]).map .instr ++
        emitBlocks m opt (frameOf A F) A F bs')) :
    ∃ s, via ⟨i, σ⟩ s ∧ img.target (F.label (if cond then s₀ else s₁)) = some s.pc ∧
      s.data.mem = σ.mem ∧ Keeps scratches σ s.data := by
  obtain ⟨t₀, ht₀⟩ := hf.target hs₀
  obtain ⟨t₁, ht₁⟩ := hf.target hs₁
  split at hat
  · rename_i hnext
    obtain ⟨s, hsteps, hpc, hmem, hk⟩ := hcode ht₀ hat
    refine ⟨s, hsteps, ?_, hmem, hk⟩
    cases cond with
    | true => exact ht₀.trans (congrArg some hpc.symm)
    | false => exact hf.falls horder hnext hpc
  · split at hat
    · rename_i hnext
      obtain ⟨s, hsteps, hpc, hmem, hk⟩ := hcode ht₁ hat
      refine ⟨s, hsteps, ?_, hmem, hk⟩
      cases cond with
      | true => exact hf.falls horder hnext hpc
      | false => exact ht₁.trans (congrArg some hpc.symm)
    · rw [List.map_append, List.append_assoc] at hat
      obtain ⟨⟨j, σ'⟩, hsteps, hpc, hmem, hk⟩ := hcode ht₀ hat
      cases cond with
      | true => exact ⟨_, hsteps, ht₀.trans (congrArg some hpc.symm), hmem, hk⟩
      | false => exact ⟨_, hvia.trans hsteps (hvia.j hpc ht₁ σ'), ht₁, hmem, hk⟩

/-- **The epilogue** comes to the return, with `a0` and the memory as they were. -/
theorem epilogue_steps (hvia : img.Follows via) (hr : Ready img m A F b) (hsp : σ.get XReg.sp = b)
    {items : List Item}
    (hat : img.At i ((emitEpilogue (frameOf A F) A).map .instr ++ items)) :
    ∃ s, via ⟨i, σ⟩ s ∧ img.items[s.pc]? = some (.instr .ret) ∧
      s.data.get XReg.a0 = σ.get XReg.a0 ∧ s.data.mem = σ.mem := by
  obtain ⟨σ', hexecs, hmem, -, -, -, hk⟩ :=
    restore_does (frameOf_laid A F) hr.placed hr.site.frame.aligned hsp
  unfold emitEpilogue at hat
  rw [List.map_append, List.append_assoc] at hat
  obtain ⟨hsteps, hat'⟩ := hvia.execs hat hexecs
  refine ⟨_, hsteps, hat'.head, hk _ fun hmem => ?_, hmem⟩
  simp only [List.mem_cons] at hmem
  rcases hmem with h | h | h | h | h
  · cases h
  · cases h
  · cases h
  · cases h
  · cases hr.placed.usedCallee_mem h

end Terminators

/-! ## Blocks -/

section Blocks

variable {img : Image} {m : IRModule} {opt : Bool} {A : Allocation} {F : IRFunc} {b : BitVec 32}
  {call : Callee} {blk : Nat} {bs bs' : List Nat} {R R' : Regs} {G G' : Globals} {σ : Data}
  {i : Nat} {events : List Event} {via : State → State → Prop}

theorem eq_append_of_filter {insts : List Inst} {p : Inst → Bool} {last : Inst}
    (h : insts.getLast?.filter p = some last) :
    ∃ init, insts = init ++ [last] ∧ p last = true := by
  obtain ⟨hlast, hp⟩ := Option.filter_eq_some_iff.mp h
  obtain ⟨init, hinit⟩ := List.getLast?_eq_some_iff.mp hlast
  exact ⟨init, hinit, hp⟩

theorem feedsOnly_eq {inst : Inst} {v : Val} (h : feedsOnly F inst v = true) :
    ∃ d, inst.dst = some d ∧ v = .reg d ∧ useCount F d = 1 := by
  unfold feedsOnly at h
  cases hd : inst.dst with
  | none =>
    rw [hd] at h
    cases h
  | some d =>
    simp only [hd, Bool.and_eq_true, beq_iff_eq] at h
    cases v with
    | imm i => cases h.1
    | reg r =>
      obtain rfl := Option.some.inj h.1
      exact ⟨_, rfl, rfl, h.2⟩

/-- The value of a comparison. -/
theorem exec_isCmp {inst : Inst} (hop : isCmp inst.op = true) {d : Nat} (hd : inst.dst = some d)
    (hexec : inst.exec call R G = .ok (R', G')) :
    R' = R.set d (inst.op.eval (inst.a.eval R) (inst.b.eval R)) ∧ G' = G := by
  unfold Inst.exec at hexec
  cases hinst : inst.op with
  | Lt | Gt | Le | Ge | Eq | Ne =>
    simp only [hinst, hd, Regs.write_some, Outcome.ok.injEq, Prod.mk.injEq] at hexec
    exact ⟨hexec.1.symm, hexec.2.symm⟩
  | _ =>
    rw [hinst] at hop
    cases hop

/-- The instructions that are emitted by themselves. -/
theorem Holds.plain (hvia : img.Follows via) (hr : Ready img m A F b)
    (hg : GivenVia via img m opt A F b call (F.start blk R G))
    {init rest : List Inst} (hinsts : (F.blockAt blk).insts = init ++ rest)
    (h : Holds img m A F b (F.start blk R G) σ)
    (hrun : runInsts call init R G = .ok (R', G', events)) {items : List Item}
    (hat : img.At i ((init.flatMap (emitInst m opt (frameOf A F) A none)).map .instr ++ items)) :
    ∃ j σ', via ⟨i, σ⟩ ⟨j, σ'⟩ ∧ img.At j items ∧
      Holds img m A F b ⟨blk, rest, R', G'⟩ σ' ∧
      Machine.Steps (F.step call) (F.start blk R G) ⟨blk, rest, R', G'⟩ := by
  have hstart : F.start blk R G = ⟨blk, init ++ rest, R, G⟩ := by
    rw [← hinsts]
    rfl
  rw [hstart] at h hg ⊢
  exact h.insts hvia hr hg (.refl _) hrun hat

/-- **A block that ends with a jump.** -/
theorem goesOn_jmp (hvia : img.Follows via) (hr : Ready img m A F b) (hf : FuncAt img m opt A F)
    (hg : GivenVia via img m opt A F b call (F.start blk R G)) (horder : order F = bs ++ blk :: bs')
    (hterm : (F.blockAt blk).term = .Jmp)
    (h : Holds img m A F b (F.start blk R G) σ)
    (hrun : runInsts call (F.blockAt blk).insts R G = .ok (R', G', events))
    (hat : img.At i ((blockCode m opt (frameOf A F) A F (F.blockAt blk) bs'.head?).map .instr ++
      emitBlocks m opt (frameOf A F) A F bs')) :
    ∃ s, via ⟨i, σ⟩ s ∧ GoesOn img m A F b s (F.execTerm (F.blockAt blk) R' G') := by
  have hsucc : (F.blockAt blk).succ0 ∈ succsOf (F.blockAt blk) := by simp [succsOf, hterm]
  have hlt := hr.fits.inRange.succs_lt blk _ hsucc
  have hmem : blk ∈ order F := by
    rw [horder]
    simp
  have hcode : blockCode m opt (frameOf A F) A F (F.blockAt blk) bs'.head? =
      (F.blockAt blk).insts.flatMap (emitInst m opt (frameOf A F) A none) ++
        if some (F.blockAt blk).succ0 ≠ bs'.head? then [.j (F.label (F.blockAt blk).succ0)]
        else [] := by
    unfold blockCode plainInsts fusedCmp fusedRet emitTerm
    simp [hterm]
  rw [hcode, List.map_append, List.append_assoc] at hat
  obtain ⟨j, σ', hsteps, hat', h₁, -⟩ := h.plain hvia hr hg (List.append_nil _).symm hrun hat
  obtain ⟨t, ht, hjump⟩ := hf.jump hvia (σ := σ') horder
    (succ_mem_order hr.fits.inRange.succs_lt hmem hsucc) hat'
  refine ⟨_, hvia.trans hsteps hjump, ?_⟩
  unfold IRFunc.execTerm
  rw [hterm]
  simp only [IRFunc.enter_eq hlt]
  exact ⟨ht, h₁.enter hsucc hlt⟩

/-- **A block that ends with a branch.** -/
theorem goesOn_br (hvia : img.Follows via) (hr : Ready img m A F b) (hf : FuncAt img m opt A F)
    (hg : GivenVia via img m opt A F b call (F.start blk R G)) (horder : order F = bs ++ blk :: bs')
    (hterm : (F.blockAt blk).term = .Br)
    (h : Holds img m A F b (F.start blk R G) σ)
    (hrun : runInsts call (F.blockAt blk).insts R G = .ok (R', G', events))
    (hat : img.At i ((blockCode m opt (frameOf A F) A F (F.blockAt blk) bs'.head?).map .instr ++
      emitBlocks m opt (frameOf A F) A F bs')) :
    ∃ s, via ⟨i, σ⟩ s ∧ GoesOn img m A F b s (F.execTerm (F.blockAt blk) R' G') := by
  have hmem : blk ∈ order F := by
    rw [horder]
    simp
  have hlt := hr.fits.inRange.succs_lt blk
  have hin : ∀ {s}, s ∈ succsOf (F.blockAt blk) → s ∈ order F := fun hs =>
    succ_mem_order hr.fits.inRange.succs_lt hmem hs
  have hs₀ : (F.blockAt blk).succ0 ∈ succsOf (F.blockAt blk) := by simp [succsOf, hterm]
  have hs₁ : (F.blockAt blk).succ1 ∈ succsOf (F.blockAt blk) := by simp [succsOf, hterm]
  have hret : fusedRet F (F.blockAt blk) = none := by
    unfold fusedRet
    simp [hterm]
  have hsucc : ∀ taken : Bool, (if taken then (F.blockAt blk).succ0 else (F.blockAt blk).succ1) ∈
      succsOf (F.blockAt blk) := by
    intro taken
    split
    · exact hs₀
    · exact hs₁
  -- Wherever the branch leads, the block there is entered.
  have hexec : F.execTerm (F.blockAt blk) R' G' =
      .ok (.inl (F.start (if Word.truthy ((F.blockAt blk).cond.eval R') then (F.blockAt blk).succ0
        else (F.blockAt blk).succ1) R' G')) := by
    unfold IRFunc.execTerm
    rw [hterm]
    exact IRFunc.enter_eq (hlt _ (hsucc _)) R' G'
  rw [hexec]
  unfold blockCode plainInsts at hat
  rw [hret, Option.isSome_none, Bool.or_false] at hat
  cases hfused : fusedCmp F (F.blockAt blk) with
  | none =>
    rw [hfused, Option.isSome_none, if_neg Bool.false_ne_true, List.map_append,
      List.append_assoc] at hat
    obtain ⟨j, σ', hsteps, hat', h₁, -⟩ := h.plain hvia hr hg (List.append_nil _).symm hrun hat
    have hcond : (F.blockAt blk).cond.eval (locs (frameOf A F) A σ') =
        (F.blockAt blk).cond.eval R' := Val.eval_congr fun r hr =>
      h₁.live r (.term (by simp [BasicBlock.termUses, hterm, hr]))
    have hcode : emitTerm m opt (frameOf A F) A F (F.blockAt blk) bs'.head? none none =
        if some (F.blockAt blk).succ1 = bs'.head? then
          (toReg (frameOf A F) A (F.blockAt blk).cond scratch0).1 ++
            [.bnez (toReg (frameOf A F) A (F.blockAt blk).cond scratch0).2
              (F.label (F.blockAt blk).succ0)]
        else if some (F.blockAt blk).succ0 = bs'.head? then
          (toReg (frameOf A F) A (F.blockAt blk).cond scratch0).1 ++
            [.beqz (toReg (frameOf A F) A (F.blockAt blk).cond scratch0).2
              (F.label (F.blockAt blk).succ1)]
        else (toReg (frameOf A F) A (F.blockAt blk).cond scratch0).1 ++
            [.bnez (toReg (frameOf A F) A (F.blockAt blk).cond scratch0).2
              (F.label (F.blockAt blk).succ0)] ++ [.j (F.label (F.blockAt blk).succ1)] := by
      unfold emitTerm
      simp only [hterm]
      split
      · rfl
      · split
        · rfl
        · rw [List.append_assoc]
          rfl
    rw [hcode] at hat'
    obtain ⟨s, hsteps', ht, hmem', hk⟩ := hf.branches hvia horder (hin hs₀) (hin hs₁)
      (fun l negate => (toReg (frameOf A F) A (F.blockAt blk).cond scratch0).1 ++
        [.branch (if negate then .beq else .bne)
          (toReg (frameOf A F) A (F.blockAt blk).cond scratch0).2 0 l])
      (Word.truthy ((F.blockAt blk).cond.eval R'))
      (fun {l negate t items} ht hat => branchVal_steps hvia (h₁.aligned hr) (by
        rw [hcond]
        cases negate <;> simp [Cmp.eval, Word.truthy, bne]) ht hat) hat'
    exact ⟨s, hvia.trans hsteps hsteps', ht,
      (h₁.enter (hsucc _) (hlt _ (hsucc _))).of_keeps hr hmem' hk⟩
  | some last =>
    rw [hfused, Option.isSome_some, if_pos rfl] at hat
    unfold fusedCmp at hfused
    rw [if_pos hterm] at hfused
    obtain ⟨init, hinsts, hp⟩ := eq_append_of_filter hfused
    obtain ⟨hop, hfeeds⟩ := Bool.and_eq_true _ _ ▸ hp
    obtain ⟨d, hd, hcond, huse⟩ := feedsOnly_eq hfeeds
    have hdterm : d ∈ (F.blockAt blk).termUses := by
      simp [BasicBlock.termUses, hterm, hcond, Val.reg?]
    have hdead := not_liveAt_of_useCount (mem_order_lt hmem) hinsts hd hdterm huse
    rw [hinsts] at hrun
    obtain ⟨R₁, G₁, es, es', hrun₁, hlast, -⟩ := runInsts_append hrun
    obtain ⟨⟨R₂, G₂⟩, hexeclast, hlast⟩ := Outcome.bind_eq_ok.mp hlast
    cases hlast
    obtain ⟨rfl, rfl⟩ := exec_isCmp hop hd hexeclast
    have hplain : (F.blockAt blk).insts.dropLast = init := by
      rw [hinsts]
      exact List.dropLast_concat
    rw [hplain, List.map_append, List.append_assoc] at hat
    obtain ⟨j, σ', hsteps, hat', h₁, -⟩ := h.plain hvia hr hg hinsts hrun₁ hat
    have hoperands : last.operands = [last.a, last.b] := by
      unfold Inst.operands
      cases hlast : last.op <;> rw [hlast] at hop <;> first | rfl | cases hop
    have ha : last.a ∈ last.operands := by simp [hoperands]
    have hb : last.b ∈ last.operands := by simp [hoperands]
    unfold emitTerm at hat'
    simp only [hterm] at hat'
    obtain ⟨s, hsteps', ht, hmem', hk⟩ := hf.branches hvia horder (hin hs₀) (hin hs₁)
      (fun l negate => emitBranchCmp (frameOf A F) A last.op last.a last.b l negate)
      (Word.truthy (last.op.eval (last.a.eval R₁) (last.b.eval R₁)))
      (fun {l negate t items} ht hat => by
        have := branchCmp_steps hvia hop (h₁.aligned hr) (h₁.located hr ha) (h₁.located hr hb) ht
          hat
        rwa [h₁.eval ha, h₁.eval hb] at this) hat'
    have hval : (F.blockAt blk).cond.eval
        (R₁.set d (last.op.eval (last.a.eval R₁) (last.b.eval R₁))) =
        last.op.eval (last.a.eval R₁) (last.b.eval R₁) := by
      rw [hcond, Val.eval_reg, Regs.set_same]
    refine ⟨s, hvia.trans hsteps hsteps', ?_, ?_⟩
    · rw [hval]
      exact ht
    · exact (h₁.enter_without hd (hsucc _) (hlt _ (hsucc _)) (hdead _) _).of_keeps hr hmem' hk

/-- **A block that ends with a return.** -/
theorem goesOn_ret (hvia : img.Follows via) (hr : Ready img m A F b)
    (hg : GivenVia via img m opt A F b call (F.start blk R G)) {next : Option Nat}
    {items : List Item}
    (hterm : (F.blockAt blk).term = .Ret)
    (h : Holds img m A F b (F.start blk R G) σ)
    (hrun : runInsts call (F.blockAt blk).insts R G = .ok (R', G', events))
    (hat : img.At i ((blockCode m opt (frameOf A F) A F (F.blockAt blk) next).map .instr ++
      items)) :
    ∃ s, via ⟨i, σ⟩ s ∧ GoesOn img m A F b s (F.execTerm (F.blockAt blk) R' G') := by
  have hcmp : fusedCmp F (F.blockAt blk) = none := by
    unfold fusedCmp
    simp [hterm]
  have hexec : F.execTerm (F.blockAt blk) R' G' = .ok (.inr (if (F.blockAt blk).retHasVal then
      some ((F.blockAt blk).retVal.eval R') else none, G')) := by
    unfold IRFunc.execTerm
    rw [hterm]
  rw [hexec]
  unfold blockCode plainInsts at hat
  rw [hcmp, Option.isSome_none, Bool.false_or] at hat
  cases hfused : fusedRet F (F.blockAt blk) with
  | none =>
    rw [hfused, Option.isSome_none, if_neg Bool.false_ne_true, List.map_append,
      List.append_assoc] at hat
    obtain ⟨j, σ', hsteps, hat', h₁, -⟩ := h.plain hvia hr hg (List.append_nil _).symm hrun hat
    have hvalue : Does img.sym
        (if (F.blockAt blk).retHasVal then
          materialize (frameOf A F) A (F.blockAt blk).retVal XReg.a0 else []) σ' fun σ₁ =>
        σ₁.mem = σ'.mem ∧ ((F.blockAt blk).retHasVal = true →
          σ₁.get XReg.a0 = (F.blockAt blk).retVal.eval R') ∧ Keeps [XReg.a0, XReg.a7] σ' σ₁ := by
      split
      · rename_i hval
        refine Does.mono (materialize_leaves (x := XReg.a0) (h₁.aligned hr) (by decide))
          fun σ₁ ⟨hmem, hv, hk⟩ => ⟨hmem, fun _ => ?_, hk⟩
        rw [hv]
        exact Val.eval_congr fun r hr =>
          h₁.live r (.term (by simp [BasicBlock.termUses, hterm, hval, hr]))
      · rename_i hval
        exact .nil ⟨rfl, fun h => absurd h hval, .refl _ _⟩
    obtain ⟨σ₁, hexecs, hmem, ha0, hk⟩ := hvalue
    unfold emitTerm at hat'
    simp only [hterm, List.map_append, List.append_assoc] at hat'
    obtain ⟨hsteps₁, hat₁⟩ := hvia.execs hat' hexecs
    obtain ⟨s, hsteps₂, hretAt, ha0', hmem'⟩ :=
      epilogue_steps hvia hr ((hk _ (by decide)).trans h₁.sp) hat₁
    refine ⟨s, hvia.trans (hvia.trans hsteps hsteps₁) hsteps₂, hretAt, fun w hw => ?_,
      fun gid hgid => ?_⟩
    · split at hw
      · rename_i hval
        rw [ha0', ha0 hval]
        exact Option.some.inj hw
      · cases hw
    · rw [hmem', hmem]
      exact h₁.globals gid hgid
  | some last =>
    rw [hfused, Option.isSome_some, if_pos rfl] at hat
    unfold fusedRet at hfused
    by_cases hval : (F.blockAt blk).term = .Ret ∧ (F.blockAt blk).retHasVal = true
    · rw [if_pos hval] at hfused
      obtain ⟨init, hinsts, hfeeds⟩ := eq_append_of_filter hfused
      obtain ⟨d, hd, hretVal, -⟩ := feedsOnly_eq hfeeds
      rw [hinsts] at hrun
      obtain ⟨R₁, G₁, es, es', hrun₁, hlast, -⟩ := runInsts_append hrun
      obtain ⟨⟨R₂, G₂⟩, hexeclast, hlast⟩ := Outcome.bind_eq_ok.mp hlast
      cases hlast
      have hplain : (F.blockAt blk).insts.dropLast = init := by
        rw [hinsts]
        exact List.dropLast_concat
      rw [hplain, List.map_append, List.append_assoc] at hat
      obtain ⟨j, σ', hsteps, hat', h₁, hc₀⟩ := h.plain hvia hr hg hinsts hrun₁ hat
      unfold emitTerm at hat'
      simp only [hterm, List.map_append, List.append_assoc] at hat'
      obtain ⟨σ₁, hsteps₁, ha0, hsp, hglobals⟩ := h₁.into_a0 hvia hr hg hc₀ hexeclast hd hat'
      have hat₁ := (Image.at_append.mp hat').2
      rw [List.length_map] at hat₁
      obtain ⟨s, hsteps₂, hretAt, ha0', hmem'⟩ := epilogue_steps hvia hr hsp hat₁
      refine ⟨s, hvia.trans (hvia.trans hsteps hsteps₁) hsteps₂, hretAt, fun w hw => ?_,
      fun gid hgid => ?_⟩
      · rw [if_pos hval.2, hretVal] at hw
        rw [ha0', ha0]
        exact Option.some.inj hw
      · rw [hmem']
        exact hglobals gid hgid
    · rw [if_neg hval] at hfused
      cases hfused

/-- **The code of a block goes where the block goes.** -/
theorem block_goesVia (hvia : img.Follows via) (hr : Ready img m A F b) (hf : FuncAt img m opt A F)
    (hg : GivenVia via img m opt A F b call (F.start blk R G)) (horder : order F = bs ++ blk :: bs')
    (hended : (F.blockAt blk).term ≠ .None)
    (h : Holds img m A F b (F.start blk R G) σ)
    (hrun : runInsts call (F.blockAt blk).insts R G = .ok (R', G', events))
    (hat : img.At i ((blockCode m opt (frameOf A F) A F (F.blockAt blk) bs'.head?).map .instr ++
      emitBlocks m opt (frameOf A F) A F bs')) :
    ∃ s, via ⟨i, σ⟩ s ∧ GoesOn img m A F b s (F.execTerm (F.blockAt blk) R' G') := by
  cases hterm : (F.blockAt blk).term with
  | None => exact absurd hterm hended
  | Jmp => exact goesOn_jmp hvia hr hf hg horder hterm h hrun hat
  | Br => exact goesOn_br hvia hr hf hg horder hterm h hrun hat
  | Ret => exact goesOn_ret hvia hr hg hterm h hrun hat

/-- By the machine's own steps. -/
theorem block_goesOn (hr : Ready img m A F b) (hf : FuncAt img m opt A F)
    (hg : Given img m opt A F b call (F.start blk R G)) (horder : order F = bs ++ blk :: bs')
    (hended : (F.blockAt blk).term ≠ .None)
    (h : Holds img m A F b (F.start blk R G) σ)
    (hrun : runInsts call (F.blockAt blk).insts R G = .ok (R', G', events))
    (hat : img.At i ((blockCode m opt (frameOf A F) A F (F.blockAt blk) bs'.head?).map .instr ++
      emitBlocks m opt (frameOf A F) A F bs')) :
    ∃ s, img.Steps ⟨i, σ⟩ s ∧ GoesOn img m A F b s (F.execTerm (F.blockAt blk) R' G') :=
  block_goesVia Image.follows_steps hr hf hg.via horder hended h hrun hat

end Blocks

/-- **Block layout and fusion preserve control flow.** In the assembly of a module whose functions
have names of their own, every label that is jumped to is defined once. From a machine that
matches the start of a block that can be reached, the code of the block comes to the label of the
successor that the three-address code chooses, and matches there, or to a return with the
returned value in `a0`. -/
theorem emitBlock_correct {S : Sorting} {m : IRModule} {opt : Bool} {n : Nat} {img : Image}
    (hm : m.FuncsNamed) (hids : ∀ F ∈ m.funcs, F.blocks.map (·.id) = List.range F.blocks.length)
    (hfits : ∀ F ∈ m.funcs, FuncFits m F)
    (hended : ∀ F ∈ m.funcs, ∀ blk, F.Reachable blk → (F.blockAt blk).term ≠ .None)
    (hcode : generateAsmOpt S m opt n = .ok img.items) :
    (∀ l ∈ jumps img.items, (labels img.items).count l = 1) ∧
      ∀ F ∈ m.funcs, ∃ A, allocateRegisters S F n = .ok A ∧
        ∀ b, Site img m A F b → ∀ call blk R G σ, F.Reachable blk →
          Given img m opt A F b call (F.start blk R G) → Holds img m A F b (F.start blk R G) σ →
          ∃ i, img.target (F.label blk) = some i ∧
            ∀ R' G' events, runInsts call (F.blockAt blk).insts R G = .ok (R', G', events) →
              ∃ s, img.Steps ⟨i, σ⟩ s ∧
                GoesOn img m A F b s (F.execTerm (F.blockAt blk) R' G') := by
  refine ⟨generateAsmOpt_jumps hm hids (fun F hF => (hfits F hF).inRange.succs_lt) hcode,
    fun F hF => ?_⟩
  obtain ⟨A, hA, hf⟩ := generateAsmOpt_funcAt hm hids hcode hF
  refine ⟨A, hA, fun b hsite call blk R G σ hreach hg h => ?_⟩
  obtain ⟨hvalid, hplaced⟩ := allocateRegisters_valid (hfits F hF).inRange hA
  have hr : Ready img m A F b := ⟨hfits F hF, hvalid, hplaced, hsite⟩
  have hmem : blk ∈ order F :=
    (mem_order_iff (hfits F hF).inRange.succs_lt (Nat.zero_lt_of_lt h.lt)).mpr hreach
  obtain ⟨bs, bs', horder⟩ := List.append_of_mem hmem
  obtain ⟨i, ht, hat⟩ := hf.block horder
  refine ⟨i, ht, fun R' G' events hrun => ?_⟩
  obtain ⟨s, hsteps, hs⟩ := block_goesOn hr hf hg horder (hended F hF blk hreach) h hrun hat.tail
  exact ⟨s, (hat.label σ).trans hsteps, hs⟩

/-- `int f(int n) { int i = 0; while (i < n) i = i + 1; return i - 1; }` -/
def loopFunc : IRFunc where
  name := "f"
  numParams := 1
  paramRegs := [0]
  numVregs := 4
  blocks := [
    { insts := [{ op := .Mv, dst := some 1, a := .imm 0 }]
      term := .Jmp
      succ0 := 1 },
    { id := 1
      insts := [{ op := .Lt, dst := some 2, a := .reg 1, b := .reg 0 }]
      term := .Br
      cond := .reg 2
      succ0 := 2
      succ1 := 3 },
    { id := 2
      insts := [{ op := .Add, dst := some 1, a := .reg 1, b := .imm 1 }]
      term := .Jmp
      succ0 := 1 },
    { id := 3
      insts := [{ op := .Sub, dst := some 3, a := .reg 1, b := .imm 1 }]
      term := .Ret
      retHasVal := true
      retVal := .reg 3 }]

/-- Its assembly. -/
def loopImage : Image where
  items := match generateAsmOpt .insertion { funcs := [loopFunc] } true 9 with
    | .ok items => items
    | _ => []
  addr _ := 0
  itemAt _ := none
  sym _ := 0

/-- From the head of the loop, with `n` three in `t2` and `i` two in `t1`, the machine comes to the
body. -/
theorem emitBlock_correct_loopFunc :
    ∃ i s, loopImage.target (loopFunc.label 1) = some i ∧
      loopImage.Steps ⟨i, ⟨fun x => if x = 7 then 3 else if x = 6 then 2 else 0, fun _ => 0⟩⟩ s ∧
      loopImage.target (loopFunc.label 2) = some s.pc := by
  have hF : loopFunc.InRange := ⟨by decide, by decide, by decide, by decide⟩
  have hblocks : ∀ blk < 4, (loopFunc.blockAt blk).term ≠ .None ∧
      ∀ inst ∈ (loopFunc.blockAt blk).insts, inst.op ≠ .Call ∧ inst.op ≠ .Div ∧ inst.op ≠ .Mod := by
    decide
  have hended : ∀ blk, loopFunc.Reachable blk → (loopFunc.blockAt blk).term ≠ .None := fun blk h =>
    (hblocks blk (mem_order_lt ((mem_order_iff hF.succs_lt (by decide)).mpr h))).1
  obtain ⟨-, h⟩ := @emitBlock_correct .insertion { funcs := [loopFunc] } true 9 loopImage
    ⟨by decide, by decide⟩ (by decide)
    (fun F hmem => by
      obtain rfl := List.mem_singleton.mp hmem
      exact ⟨hF, by decide⟩)
    (fun F hmem => by
      obtain rfl := List.mem_singleton.mp hmem
      exact hended) rfl
  obtain ⟨A, hA, h⟩ := h loopFunc (List.mem_singleton_self _)
  obtain rfl := Outcome.ok.inj hA
  set σ : Data := ⟨fun x => if x = 7 then 3 else if x = 6 then 2 else 0, fun _ => 0⟩
  have hgiven : ∀ A b c₀,
      Given loopImage { funcs := [loopFunc] } true A loopFunc b (fun _ => .stuck) c₀ := by
    intro A b c₀
    constructor
    · intro blk inst rest R G σ i v G' _ hop h
      exact absurd hop ((hblocks _ h.lt).2 inst h.mem_insts).1
    · intro blk inst rest R G σ c rd ra _ _ _ h _ _ _
      obtain ⟨-, hdiv, hmod⟩ := (hblocks _ h.lt).2 inst h.mem_insts
      exact ⟨fun hop => absurd hop hdiv, fun hop => absurd hop hmod⟩
  have hlive : ∀ v, loopFunc.LiveAt 1 (loopFunc.blockAt 1).insts v → v = 0 ∨ v = 1 := by
    intro v hv
    have hbound : ∀ v ∈ liveInList (loopFunc.blockAt 1).insts [0, 1, 2], v = 0 ∨ v = 1 := by decide
    exact hbound v (hv.mem_bound (fun b => if b = 3 then [3] else [0, 1, 2]) (by decide)
      (by decide))
  obtain ⟨i, hi, h⟩ := h 0 ⟨⟨by decide, by decide⟩, ⟨by simp, by simp⟩, by simp⟩ (fun _ => .stuck) 1
    (fun v => if v = 0 then 3 else 2) (fun _ => 0) σ (.succ .entry (by decide)) (hgiven _ _ _)
    ⟨by decide, ⟨[], rfl⟩, rfl, fun v hv => by
      rcases hlive v hv with rfl | rfl <;> rfl, by simp [NaiveCodeGen.HoldsGlobals]⟩
  obtain ⟨s, hsteps, hs⟩ := h _ _ _ rfl
  exact ⟨i, s, hi, hsteps, hs.1⟩

end OptCodeGen

end ToyC
