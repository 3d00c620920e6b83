import ToyC.IRGenBound
import ToyC.Liveness

/-!
# What the generated code reads first

A variable is live at the entry of a function when the tree says that some path reads it first. The
proof goes along the lowering: what is live at the point the generator is at (`Live`) is what the
code it lowers next reads, and what is live behind that code where one of its paths gets through
without writing it. Blocks that wait are known by what is live where they begin (`LiveIn`).

A loop has no first turn in this, so paths are told apart by the blocks they avoid. A path that
reads a vreg from the condition of a loop on has a last visit there, and what follows avoids the
condition (`LiveOutside.last_visit`); one turn of the loop is then all there is to look at.
-/

namespace ToyC

/-! ## Paths that avoid some blocks -/

/-- **A vreg is live at a point, outside of some blocks**: some path from the point that enters none
of them reads it before it is written. -/
inductive IRFunc.LiveOutside (F : IRFunc) (X : Finset Nat) : Nat → List Inst → Nat → Prop where
  | read {b : Nat} {inst : Inst} {rest : List Inst} {v : Nat} (h : v ∈ inst.uses) :
      LiveOutside F X b (inst :: rest) v
  | pass {b : Nat} {inst : Inst} {rest : List Inst} {v : Nat} (h : inst.dst ≠ some v)
      (hrest : LiveOutside F X b rest v) : LiveOutside F X b (inst :: rest) v
  | term {b v : Nat} (h : v ∈ (F.blockAt b).termUses) : LiveOutside F X b [] v
  | succ {b s v : Nat} (hs : s ∈ succsOf (F.blockAt b)) (hX : s ∉ X)
      (h : LiveOutside F X s (F.blockAt s).insts v) : LiveOutside F X b [] v

namespace IRFunc.LiveOutside

variable {F : IRFunc} {X Y : Finset Nat} {b v : Nat} {insts : List Inst}

/-- With nothing to avoid it is liveness. -/
theorem iff_liveAt : F.LiveOutside ∅ b insts v ↔ F.LiveAt b insts v := by
  constructor
  · intro h
    induction h with
    | read h => exact .read h
    | pass h _ ih => exact .pass h ih
    | term h => exact .term h
    | succ hs _ _ ih => exact .succ hs ih
  · intro h
    induction h with
    | read h => exact .read h
    | pass h _ ih => exact .pass h ih
    | term h => exact .term h
    | succ hs _ ih => exact .succ hs (Finset.notMem_empty _) ih

theorem mono (hXY : X ⊆ Y) (h : F.LiveOutside Y b insts v) : F.LiveOutside X b insts v := by
  induction h with
  | read h => exact .read h
  | pass h _ ih => exact .pass h ih
  | term h => exact .term h
  | succ hs hY _ ih => exact .succ hs (fun hX => hY (hXY hX)) ih

/-- **The last visit of a block**: what follows avoids it. -/
theorem last_visit (h : F.LiveOutside X b insts v) (c : Nat) :
    F.LiveOutside (insert c X) b insts v ∨
      F.LiveOutside (insert c X) c (F.blockAt c).insts v := by
  induction h with
  | read h => exact .inl (.read h)
  | pass h _ ih => exact ih.imp_left (.pass h)
  | term h => exact .inl (.term h)
  | @succ b s v hs hX _ ih =>
    rcases ih with ih | ih
    · by_cases hc : s = c
      · subst hc
        exact .inr ih
      · refine .inl (.succ hs (fun hmem => ?_) ih)
        rcases Finset.mem_insert.mp hmem with h | h
        · exact hc h
        · exact hX h
    · exact .inr ih

/-- So a block may as well be avoided from its beginning on. -/
theorem iff_insert : F.LiveOutside X b (F.blockAt b).insts v ↔
    F.LiveOutside (insert b X) b (F.blockAt b).insts v :=
  ⟨fun h => (h.last_visit b).elim id id, mono (Finset.subset_insert b X)⟩

theorem cons_iff {inst : Inst} {rest : List Inst} :
    F.LiveOutside X b (inst :: rest) v ↔
      v ∈ inst.uses ∨ inst.dst ≠ some v ∧ F.LiveOutside X b rest v := by
  constructor
  · rintro (h | ⟨h, hrest⟩)
    · exact .inl h
    · exact .inr ⟨h, hrest⟩
  · rintro (h | ⟨h, hrest⟩)
    · exact .read h
    · exact .pass h hrest

theorem nil_iff : F.LiveOutside X b [] v ↔ v ∈ (F.blockAt b).termUses ∨
    ∃ s ∈ succsOf (F.blockAt b), s ∉ X ∧ F.LiveOutside X s (F.blockAt s).insts v := by
  constructor
  · rintro (_ | _ | h | ⟨hs, hX, h⟩)
    · exact .inl h
    · exact .inr ⟨_, hs, hX, h⟩
  · rintro (h | ⟨s, hs, hX, h⟩)
    · exact .term h
    · exact .succ hs hX h

end IRFunc.LiveOutside

namespace IRGen

/-! ## Points of the lowering -/

section Points

variable (F : IRFunc) (X : Finset Nat) (v : Nat)

/-- **A vreg is live where the generator is.** -/
def Live (g : IRGen) : Prop := F.LiveOutside X g.curBB (g.rest F) v

/-- **A vreg is live where a block begins**, and the block may be entered. -/
def LiveIn (b : Nat) : Prop := b ∉ X ∧ F.LiveOutside X b (F.blockAt b).insts v

end Points

section Steps

variable {F : IRFunc} {X : Finset Nat} {v : Nat} {g g' : IRGen}

/-- Where nothing was written yet. -/
theorem live_reserved {b : Nat} (hb : g.Reserved b) :
    Live F X v (g.startBlock b) ↔ F.LiveOutside X b (F.blockAt b).insts v := by
  have hrest : (g.startBlock b).rest F = (F.blockAt b).insts := by
    show (F.blockAt b).insts.drop (g.blockAt b).insts.length = _
    rw [hb.empty]
    rfl
  rw [Live, hrest]
  exact Iff.rfl

theorem live_startBlock {b : Nat} (hb : g.Reserved b) (hX : b ∉ X) :
    Live F X v (g.startBlock b) ↔ LiveIn F X v b :=
  (live_reserved hb).trans ⟨fun h => ⟨hX, h⟩, fun h => h.2⟩

theorem LiveIn.mono {Y : Finset Nat} (hXY : X ⊆ Y) {b : Nat} (h : LiveIn F Y v b) :
    LiveIn F X v b :=
  ⟨fun hX => h.1 (hXY hX), h.2.mono hXY⟩

/-- Where nothing was written since. -/
theorem live_congr (hcur : g'.curBB = g.curBB) (hblock : g'.blockAt g.curBB = g.blockAt g.curBB) :
    Live F X v g' ↔ Live F X v g := by
  rw [Live, Live, rest, rest, hcur, hblock]

theorem live_newVreg : Live F X v g.newVreg.2 ↔ Live F X v g := live_congr rfl rfl

theorem live_newBlock (hg : g.WF) : Live F X v g.newBlock.2 ↔ Live F X v g :=
  live_congr rfl (newBlock_blockAt_of_lt hg.cur_lt)

/-- **Over an instruction.** -/
theorem live_emit (hg : g.WF) (hopen : g.isSealed = false) {inst : Inst}
    (hc : Covers F (g.emit inst)) :
    Live F X v g ↔ v ∈ inst.uses ∨ inst.dst ≠ some v ∧ Live F X v (g.emit inst) := by
  rw [Live, rest_emit hg hopen hc, IRFunc.LiveOutside.cons_iff, Live, emit_curBB hopen]

/-- **Over a terminator.** -/
theorem live_close (hg : g.WF) (hopen : g.isSealed = false) {f : BasicBlock → BasicBlock}
    (hinsts : ∀ bb, (f bb).insts = bb.insts) (hterm : (f (g.blockAt g.curBB)).term ≠ .None)
    (hc : Covers F (g.close f)) :
    Live F X v g ↔ v ∈ (f (g.blockAt g.curBB)).termUses ∨
      ∃ s ∈ succsOf (f (g.blockAt g.curBB)), LiveIn F X v s := by
  obtain ⟨hrest, -, preds, hpreds⟩ := rest_close hg hopen hinsts hterm hc
  rw [Live, hrest, IRFunc.LiveOutside.nil_iff, hpreds]
  exact Iff.rfl

theorem live_termJmp (hg : g.WF) (hopen : g.isSealed = false) {t : Nat}
    (hc : Covers F (g.termJmp t)) : Live F X v g ↔ LiveIn F X v t := by
  rw [live_close hg hopen (f := fun bb => { bb with term := .Jmp, succ0 := t }) (fun _ => rfl)
    (by simp) hc]
  simp [BasicBlock.termUses, succsOf]

theorem live_termBr (hg : g.WF) (hopen : g.isSealed = false) {c : Val} {t f : Nat}
    (hc : Covers F (g.termBr c t f)) :
    Live F X v g ↔ c.reg? = some v ∨ LiveIn F X v t ∨ LiveIn F X v f := by
  rw [live_close hg hopen (f := fun bb => { bb with term := .Br, cond := c, succ0 := t, succ1 := f })
    (fun _ => rfl) (by simp) hc]
  simp [BasicBlock.termUses, succsOf]

theorem live_termRet (hg : g.WF) (hopen : g.isSealed = false) {hasVal : Bool} {c : Val}
    (hc : Covers F (g.termRet hasVal c)) :
    Live F X v g ↔ hasVal = true ∧ c.reg? = some v := by
  rw [live_close hg hopen
    (f := fun bb => { bb with term := .Ret, retHasVal := hasVal, retVal := c })
    (fun _ => rfl) (by simp) hc]
  cases hasVal <;> simp [BasicBlock.termUses, succsOf]

end Steps

/-! ## Expressions and conditions -/

/-- The variables of a set have this vreg, and no others have, as far as they have one. -/
def Names (g : IRGen) (p : SymId → Bool) (v : Nat) : Prop :=
  ∀ sym r, g.irId.lookup sym = some r → (p sym = true ↔ r = v)

/-- Some variables have vregs. -/
def Binds (g : IRGen) (B : List SymId) : Prop := ∀ sym ∈ B, ∃ r, g.irId.lookup sym = some r

/-- A vreg that was not given out in between. -/
def Outside (v : Nat) (g g' : IRGen) : Prop := v < g.nextVreg ∨ g'.nextVreg ≤ v

/-- **A state in which code is lowered that may name some variables**, when the paths avoid blocks
of before. -/
structure At (X : Finset Nat) (p : SymId → Bool) (v : Nat) (B : List SymId) (g : IRGen) : Prop where
  wf : g.WF
  opened : g.isSealed = false
  names : g.Names p v
  binds : g.Binds B
  avoid : ∀ b ∈ X, b < g.blocks.length

section Contracts

variable (F : IRFunc) (X : Finset Nat) (p : SymId → Bool) (v : Nat) (B : List SymId)

/-- **What code for an expression reads**: whether it reads the vreg first, and whether the value
is the vreg. Where the value is new, the vreg of it is not live before. -/
structure Flow (reads isVar : Bool) (g : IRGen) (r : Val × IRGen) : Prop where
  opened : r.2.isSealed = false
  value : r.1.reg? = some v ∧ v < g.nextVreg ↔ isVar = true
  live : Live F X v g → reads = true ∨ Live F X v r.2 ∧ (r.1.reg? = some v → v < g.nextVreg)
  back : Outside v g r.2 → reads = true ∨ Live F X v r.2 → Live F X v g

/-- **What code for some arguments and the use of them reads.** -/
structure FlowAll (reads : Bool) (g : IRGen) (r : List Val × IRGen) : Prop where
  opened : r.2.isSealed = false
  live : Live F X v g → reads = true ∨ Live F X v r.2 ∧ ∀ a ∈ r.1, a.reg? ≠ some v
  back : Outside v g r.2 → ((∃ a ∈ r.1, a.reg? = some v) → Live F X v r.2) →
    reads = true ∨ Live F X v r.2 → Live F X v g

/-- **What code for a condition reads**, and where its jumps can go. -/
structure FlowCond (reads canTrue canFalse : Bool) (t f : Nat) (g g' : IRGen) : Prop where
  live : Live F X v g → reads = true ∨ canTrue = true ∧ LiveIn F X v t ∨
    canFalse = true ∧ LiveIn F X v f
  back : Outside v g g' → (reads = true ∨ canTrue = true ∧ LiveIn F X v t ∨
    canFalse = true ∧ LiveIn F X v f) → Live F X v g

/-- A way of lowering an expression whose code reads so. -/
def Flows (reads isVar : Bool) (gen : IRGen → Val × IRGen) : Prop :=
  ∀ ⦃g : IRGen⦄, At X p v B g → Covers F (gen g).2 → Flow F X v reads isVar g (gen g)

/-- The same for arguments. -/
def FlowsAll (reads : Bool) (gen : IRGen → List Val × IRGen) : Prop :=
  ∀ ⦃g : IRGen⦄, At X p v B g → Covers F (gen g).2 → FlowAll F X v reads g (gen g)

/-- The same for a condition. -/
def FlowsCond (reads canTrue canFalse : Bool) (cond : Nat → Nat → IRGen → IRGen) : Prop :=
  ∀ ⦃g : IRGen⦄ ⦃t f : Nat⦄, At X p v B g → Covers F (cond t f g) →
    FlowCond F X v reads canTrue canFalse t f g (cond t f g)

end Contracts

section Nodes

variable {F : IRFunc} {X : Finset Nat} {p : SymId → Bool} {v : Nat} {B : List SymId} {g g' : IRGen}

/-- Code that gives no variable a vreg. -/
theorem At.next (h : At X p v B g) (hgrows : ∀ k, Grows k g g') (hopen : g'.isSealed = false) :
    At X p v B g' where
  wf := (hgrows 0).wf
  opened := hopen
  names sym r hr := h.names sym r (((hgrows (sym + 1)).irId sym (Nat.lt_succ_self _)) ▸ hr)
  binds sym hsym := by
    obtain ⟨r, hr⟩ := h.binds sym hsym
    exact ⟨r, ((hgrows (sym + 1)).irId sym (Nat.lt_succ_self _)).trans hr⟩
  avoid b hb := Nat.lt_of_lt_of_le (h.avoid b hb) (hgrows 0).length_le

theorem Outside.left {g₁ g₂ g₃ : IRGen} (h : Outside v g₁ g₃) (hle : g₂.nextVreg ≤ g₃.nextVreg) :
    Outside v g₁ g₂ :=
  h.imp_right fun h => Nat.le_trans hle h

theorem Outside.right {g₁ g₂ g₃ : IRGen} (h : Outside v g₁ g₃) (hle : g₁.nextVreg ≤ g₂.nextVreg) :
    Outside v g₂ g₃ :=
  h.imp_left fun h => Nat.lt_of_lt_of_le h hle

/-- A constant. -/
theorem Flows.imm (w : Word) : Flows F X p v B false false fun g => (.imm w, g) := by
  intro g h _
  exact ⟨h.opened, by simp [Val.reg?], fun hl => .inr ⟨hl, fun h => by cases h⟩,
    fun _ h => h.resolve_left Bool.false_ne_true⟩

theorem emit_nextVreg (g : IRGen) (inst : Inst) : (g.emit inst).nextVreg = g.nextVreg := by
  show g.ensureOpen.nextVreg = _
  unfold ensureOpen
  split <;> rfl

theorem close_nextVreg (g : IRGen) (f : BasicBlock → BasicBlock) :
    (g.close f).nextVreg = g.nextVreg := by
  show g.ensureOpen.nextVreg = _
  unfold ensureOpen
  split <;> rfl

/-- **An instruction with a new vreg for its result.** -/
theorem emit_flow {g₀ : IRGen} (h₀ : g₀.nextVreg ≤ g.nextVreg) (hg : g.WF)
    (hopen : g.isSealed = false) {inst : Inst} (hdst : inst.dst = some g.nextVreg)
    (hc : Covers F (g.newVreg.2.emit inst)) :
    (Live F X v g ↔ v ∈ inst.uses ∨ v ≠ g.nextVreg ∧ Live F X v (g.newVreg.2.emit inst)) ∧
      (Outside v g₀ (g.newVreg.2.emit inst) → v ≠ g.nextVreg) ∧
      ¬((Val.reg g.nextVreg).reg? = some v ∧ v < g₀.nextVreg) := by
  have hv := newVreg_grows (k := 0) hg
  refine ⟨?_, fun hout => ?_, fun h => ?_⟩
  · rw [← live_newVreg, live_emit hv.wf hopen hc, hdst]
    simp [eq_comm]
  · have hnext : (g.newVreg.2.emit inst).nextVreg = g.nextVreg + 1 := emit_nextVreg _ _
    rcases hout with hlt | hle
    · omega
    · rw [hnext] at hle
      omega
  · have heq : g.nextVreg = v := Option.some.inj h.1
    omega

theorem genVar_flows (S : Sema) (sym : SymId) (hB : isLocal S sym = true → sym ∈ B) :
    Flows F X p v B false (isLocal S sym && p sym) (genVar S sym) := by
  intro g h hc
  unfold genVar at hc ⊢
  by_cases hk : (S.symbol sym).kind = .GlobalVar
  · rw [if_pos hk] at hc ⊢
    obtain ⟨hlive, hout, hval⟩ := emit_flow (Nat.le_refl _) h.wf h.opened rfl hc
    refine ⟨emit_isSealed _ _, ?_, fun hl => ?_, fun ho hl => ?_⟩
    · simp only [isLocal, hk, ne_eq, not_true_eq_false, decide_false, Bool.false_and,
        Bool.false_eq_true, iff_false]
      exact hval
    · obtain ⟨hne, hl⟩ := (hlive.mp hl).resolve_left (by simp [Inst.uses, Inst.operands])
      exact .inr ⟨hl, fun h => absurd (Option.some.inj h).symm hne⟩
    · exact hlive.mpr (.inr ⟨hout ho, hl.resolve_left Bool.false_ne_true⟩)
  · rw [if_neg hk] at hc ⊢
    have hlocal : isLocal S sym = true := by simp [isLocal, hk]
    obtain ⟨r, hr⟩ := h.binds sym (hB hlocal)
    have hlt := h.wf.irId_lt sym r hr
    have hval : g.vregOf sym = r := by rw [vregOf, hr]; rfl
    refine ⟨h.opened, ?_, fun hl => .inr ⟨hl, fun heq => ?_⟩, fun _ hl => ?_⟩
    · rw [hlocal, Bool.true_and, h.names sym r hr, hval]
      simp only [Val.reg?, Option.some.injEq]
      exact ⟨fun h => h.1, fun h => ⟨h, h ▸ hlt⟩⟩
    · rw [hval] at heq
      exact (Option.some.inj heq) ▸ hlt
    · exact hl.resolve_left Bool.false_ne_true

theorem mem_uses_mapBin (op : BinOp) (dst : Option Nat) (a b : Val) :
    v ∈ ({ op := mapBin op, dst, a, b } : Inst).uses ↔ a.reg? = some v ∨ b.reg? = some v := by
  cases op <;> simp [Inst.uses, Inst.operands, mapBin]

theorem genBinary_flows (op : BinOp) {rl vl rr vr : Bool} {lhs rhs : IRGen → Val × IRGen}
    (hll : Lowers lhs) (hlr : Lowers rhs) (hl : Flows F X p v B rl vl lhs)
    (hr : Flows F X p v B rr vr rhs) :
    Flows F X p v B (rl || vl || (rr || vr)) false (genBinary op lhs rhs) := by
  intro g h hc
  have h₁ := fun k => hll k g h.wf
  have h₂ := fun k => hlr k _ (h₁ 0).wf
  have h₃ := newVreg_grows (k := 0) (h₂ 0).wf
  have h₄ := fun inst => h₃.trans (h₂ 0).wf (emit_grows (k := 0) h₃.wf inst)
  have hcr := hc.of_grows (h₂ 0).wf (h₄ _)
  have fl := hl h (hcr.of_grows (h₁ 0).wf (h₂ 0))
  have fr := hr (h.next h₁ fl.opened) hcr
  have hle := Nat.le_trans (h₁ 0).nextVreg_le (h₂ 0).nextVreg_le
  obtain ⟨hlive, hout, hval⟩ := emit_flow hle (h₂ 0).wf fr.opened rfl hc
  rw [mem_uses_mapBin] at hlive
  refine ⟨emit_isSealed _ _, iff_of_false hval Bool.false_ne_true, fun hv => ?_, fun ho hv => ?_⟩
  · rcases fl.live hv with hv | ⟨hv, hnl⟩
    · exact .inl (by simp [hv])
    rcases fr.live hv with hv | ⟨hv, hnr⟩
    · exact .inl (by simp [hv])
    rcases hlive.mp hv with (ha | hb) | ⟨hne, hv⟩
    · exact .inl (by simp [fl.value.mp ⟨ha, hnl ha⟩])
    · exact .inl (by simp [fr.value.mp ⟨hb, hnr hb⟩])
    · exact .inr ⟨hv, fun h => absurd (Option.some.inj h).symm hne⟩
  · have hor := ho.right (h₁ 0).nextVreg_le |>.left (h₄ _).nextVreg_le
    have hol := ho.left (Nat.le_trans (h₂ 0).nextVreg_le (h₄ _).nextVreg_le)
    have hback : Live F X v (rhs (lhs g).2).2 → Live F X v g :=
      fun hv => fl.back hol (.inr (fr.back hor (.inr hv)))
    rcases hv with hv | hv
    · simp only [Bool.or_eq_true] at hv
      rcases hv with (hv | hv) | (hv | hv)
      · exact fl.back hol (.inl hv)
      · exact hback (hlive.mpr (.inl (.inl (fl.value.mpr hv).1)))
      · exact fl.back hol (.inr (fr.back hor (.inl hv)))
      · exact hback (hlive.mpr (.inl (.inr (fr.value.mpr hv).1)))
    · exact hback (hlive.mpr (.inr ⟨hout ho, hv⟩))

theorem genUnary_flows (op : UnOp) {r o : Bool} {operand : IRGen → Val × IRGen}
    (hlo : Lowers operand) (hf : Flows F X p v B r o operand) :
    Flows F X p v B (if op = .Plus then r else r || o) (op = .Plus && o)
      (genUnary op operand) := by
  by_cases hop : op = .Plus
  · subst hop
    exact hf
  intro g h hc
  have hgen : genUnary op operand g = (.reg (operand g).2.nextVreg, (operand g).2.newVreg.2.emit
      { op := if op = .Neg then .Neg else .Not, dst := some (operand g).2.nextVreg,
        a := (operand g).1 }) := by
    cases op with
    | Plus => exact absurd rfl hop
    | Neg | Not => rfl
  rw [hgen] at hc ⊢
  have h₁ := fun k => hlo k g h.wf
  have h₂ := newVreg_grows (k := 0) (h₁ 0).wf
  have h₃ := fun inst => h₂.trans (h₁ 0).wf (emit_grows (k := 0) h₂.wf inst)
  have fo := hf h (hc.of_grows (h₁ 0).wf (h₃ _))
  obtain ⟨hlive, hout, hval⟩ := emit_flow (h₁ 0).nextVreg_le (h₁ 0).wf fo.opened rfl hc
  have huses : ∀ dst (a : Val), v ∈ ({ op := if op = .Neg then .Neg else .Not, dst, a } : Inst).uses ↔
      a.reg? = some v := by
    intro dst a
    by_cases hn : op = .Neg <;> simp [Inst.uses, Inst.operands, hn]
  rw [huses] at hlive
  rw [if_neg hop]
  refine ⟨emit_isSealed _ _, iff_of_false hval (by simp [hop]), fun hv => ?_, fun ho hv => ?_⟩
  · rcases fo.live hv with hv | ⟨hv, hn⟩
    · exact .inl (by simp [hv])
    rcases hlive.mp hv with ha | ⟨hne, hv⟩
    · exact .inl (by simp [fo.value.mp ⟨ha, hn ha⟩])
    · exact .inr ⟨hv, fun h => absurd (Option.some.inj h).symm hne⟩
  · have hol := ho.left (h₃ _).nextVreg_le
    rcases hv with hv | hv
    · rcases Bool.or_eq_true_iff.mp hv with hv | hv
      · exact fo.back hol (.inl hv)
      · exact fo.back hol (.inr (hlive.mpr (.inl (fo.value.mpr hv).1)))
    · exact fo.back hol (.inr (hlive.mpr (.inr ⟨hout ho, hv⟩)))

theorem genCall_flows (target : FuncRef) {r : Bool} {args : IRGen → List Val × IRGen}
    (hla : Lowers args) (hf : FlowsAll F X p v B r args) :
    Flows F X p v B r false (genCall target args) := by
  intro g h hc
  have h₁ := fun k => hla k g h.wf
  have h₂ := newVreg_grows (k := 0) (h₁ 0).wf
  have huses : ∀ dst, v ∈ ({ op := .Call, dst, callee := target.name, args := (args g).1 } : Inst).uses ↔
      ∃ a ∈ (args g).1, a.reg? = some v := fun dst => by simp [Inst.uses, Inst.operands]
  cases hvoid : target.returnsVoid with
  | true =>
    simp only [genCall, hvoid, if_true] at hc ⊢
    have h₃ := emit_grows (k := 0) (h₁ 0).wf
      { op := .Call, callee := target.name, args := (args g).1 }
    have fa := hf h (hc.of_grows (h₁ 0).wf h₃)
    have hlive := live_emit (X := X) (v := v) (h₁ 0).wf fa.opened hc
    rw [huses] at hlive
    refine ⟨emit_isSealed _ _, by simp [Val.reg?], fun hv => ?_, fun ho hv => ?_⟩
    · rcases fa.live hv with hv | ⟨hv, hn⟩
      · exact .inl hv
      · have hnot : ¬ ∃ a ∈ (args g).1, a.reg? = some v := by
          rintro ⟨a, ha, heq⟩
          exact hn a ha heq
        obtain ⟨-, hv⟩ := (hlive.mp hv).resolve_left hnot
        exact .inr ⟨hv, fun h => by cases h⟩
    · refine fa.back (ho.left h₃.nextVreg_le) (fun hu => hlive.mpr (.inl hu)) (hv.imp_right ?_)
      exact fun hv => hlive.mpr (.inr ⟨by simp, hv⟩)
  | false =>
    simp only [genCall, hvoid, Bool.false_eq_true, if_false] at hc ⊢
    have h₃ := fun inst => h₂.trans (h₁ 0).wf (emit_grows (k := 0) h₂.wf inst)
    have fa := hf h (hc.of_grows (h₁ 0).wf (h₃ _))
    obtain ⟨hlive, hout, hval⟩ := emit_flow (h₁ 0).nextVreg_le (h₁ 0).wf fa.opened rfl hc
    rw [huses] at hlive
    refine ⟨emit_isSealed _ _, iff_of_false hval Bool.false_ne_true, fun hv => ?_, fun ho hv => ?_⟩
    · rcases fa.live hv with hv | ⟨hv, hn⟩
      · exact .inl hv
      · have hnot : ¬ ∃ a ∈ (args g).1, a.reg? = some v := by
          rintro ⟨a, ha, heq⟩
          exact hn a ha heq
        obtain ⟨hne, hv⟩ := (hlive.mp hv).resolve_left hnot
        exact .inr ⟨hv, fun h => absurd (Option.some.inj h).symm hne⟩
    · refine fa.back (ho.left (h₃ _).nextVreg_le) (fun hu => hlive.mpr (.inl hu)) (hv.imp_right ?_)
      exact fun hv => hlive.mpr (.inr ⟨hout ho, hv⟩)

theorem genBranch_flows {r o : Bool} {value : IRGen → Val × IRGen} (hlv : Lowers value)
    (hf : Flows F X p v B r o value) :
    FlowsCond F X p v B (r || o) true true (genBranch value) := by
  intro g t f h hc
  have h₁ := fun k => hlv k g h.wf
  have h₂ := termBr_grows (k := 0) (h₁ 0).wf (value g).1 t f
  have fv := hf h (hc.of_grows (h₁ 0).wf h₂)
  have hlive := live_termBr (X := X) (v := v) (h₁ 0).wf fv.opened hc
  constructor
  · intro hv
    rcases fv.live hv with hv | ⟨hv, hn⟩
    · exact .inl (by simp [hv])
    rcases hlive.mp hv with ha | hv | hv
    · exact .inl (by simp [fv.value.mp ⟨ha, hn ha⟩])
    · exact .inr (.inl ⟨rfl, hv⟩)
    · exact .inr (.inr ⟨rfl, hv⟩)
  · intro ho hv
    have hol := ho.left h₂.nextVreg_le
    rcases hv with hv | ⟨-, hv⟩ | ⟨-, hv⟩
    · rcases Bool.or_eq_true_iff.mp hv with hv | hv
      · exact fv.back hol (.inl hv)
      · exact fv.back hol (.inr (hlive.mpr (.inl (fv.value.mpr hv).1)))
    · exact fv.back hol (.inr (hlive.mpr (.inr (.inl hv))))
    · exact fv.back hol (.inr (hlive.mpr (.inr (.inr hv))))

theorem genConstCond_flows (w : Word) :
    FlowsCond F X p v B false (decide (w ≠ 0#32) == true) (decide (w ≠ 0#32) == false)
      (genConstCond w) := by
  intro g t f h hc
  have hlive := live_termJmp (X := X) (v := v) h.wf h.opened hc
  by_cases hw : w = 0#32
  · rw [if_neg (not_not.mpr hw)] at hlive
    simp only [hw, ne_eq, not_true_eq_false, decide_false]
    exact ⟨fun hv => .inr (.inr ⟨rfl, hlive.mp hv⟩), fun _ hv => hlive.mpr (by simpa using hv)⟩
  · rw [if_pos hw] at hlive
    simp only [hw, ne_eq, not_false_eq_true, decide_true]
    exact ⟨fun hv => .inr (.inl ⟨rfl, hlive.mp hv⟩), fun _ hv => hlive.mpr (by simpa using hv)⟩

/-- Where the targets change places. -/
theorem FlowsCond.swap {r ct cf : Bool} {cond : Nat → Nat → IRGen → IRGen}
    (h : FlowsCond F X p v B r ct cf cond) :
    FlowsCond F X p v B r cf ct fun t f => cond f t := by
  intro g t f hat hc
  obtain ⟨hlive, hback⟩ := h hat hc
  exact ⟨fun hv => (hlive hv).imp_right Or.symm, fun ho hv => hback ho (hv.imp_right Or.symm)⟩

theorem genLogicalCond_flows (isOr : Bool) {rl rr : Bool} (cl cr : Bool → Bool)
    {lhs rhs : Nat → Nat → IRGen → IRGen} (hjl : Jumps lhs) (hjr : Jumps rhs)
    (hl : FlowsCond F X p v B rl (cl true) (cl false) lhs)
    (hr : FlowsCond F X p v B rr (cr true) (cr false) rhs) :
    FlowsCond F X p v B (rl || cl (!isOr) && rr)
      (if isOr == true then cl true || cl false && cr true else cl true && cr true)
      (if isOr == false then cl false || cl true && cr false else cl false && cr false)
      (genLogicalCond isOr lhs rhs) := by
  intro g t f h hc
  have hnew := fun k => newBlock_grows (k := k) h.wf
  have hres := newBlock_reserved h.wf
  have hmidX : g.newBlock.1 ∉ X := fun hmem => Nat.lt_irrefl _ (h.avoid _ hmem)
  have h₀ : At X p v B g.newBlock.2 := h.next hnew h.opened
  -- The two operands, wherever the jumps of the first one go.
  have hparts : ∀ t' f', Covers F (rhs t f ((lhs t' f' g.newBlock.2).startBlock g.newBlock.1)) →
      FlowCond F X v rl (cl true) (cl false) t' f' g.newBlock.2 (lhs t' f' g.newBlock.2) ∧
      (LiveIn F X v g.newBlock.1 → rr = true ∨ cr true = true ∧ LiveIn F X v t ∨
        cr false = true ∧ LiveIn F X v f) ∧
      (Outside v g (rhs t f ((lhs t' f' g.newBlock.2).startBlock g.newBlock.1)) →
        Outside v g.newBlock.2 (lhs t' f' g.newBlock.2) ∧
        ((rr = true ∨ cr true = true ∧ LiveIn F X v t ∨ cr false = true ∧ LiveIn F X v f) →
          LiveIn F X v g.newBlock.1)) := by
    intro t' f' hc
    have h₁ := fun k => hjl k t' f' g.newBlock.2 (hnew k).wf
    have hto := fun k => ((hnew k).trans h.wf (h₁ k)).startBlock (Nat.le_refl _)
      ((h₁ k).reserved hres)
    have h₂ := hjr 0 t f _ (hto 0).wf
    have hcm := hc.of_grows (hto 0).wf h₂
    have fr := hr (h.next hto rfl) hc
    have hmid := live_startBlock (F := F) (v := v) ((h₁ 0).reserved hres) hmidX
    refine ⟨hl h₀ hcm.startBlock, fun hv => fr.live (hmid.mpr hv), fun ho => ⟨?_, fun hv => ?_⟩⟩
    · exact ho.left h₂.nextVreg_le
    · exact hmid.mp (fr.back (ho.right (hto 0).nextVreg_le) hv)
  have hlive := live_newBlock (F := F) (X := X) (v := v) h.wf
  cases isOr with
  | true =>
    obtain ⟨fl, hmid, hback⟩ := hparts t g.newBlock.1 hc
    refine ⟨fun hv => ?_, fun ho hv => ?_⟩
    · have hv := fl.live (hlive.mpr hv)
      simp only [Bool.not_true, Bool.or_eq_true, Bool.and_eq_true, beq_self_eq_true, if_true,
        Bool.true_beq, Bool.false_eq_true, if_false]
      grind only
    · obtain ⟨hol, hback⟩ := hback ho
      refine hlive.mp (fl.back hol ?_)
      simp only [Bool.not_true, Bool.or_eq_true, Bool.and_eq_true, beq_self_eq_true, if_true,
        Bool.true_beq, Bool.false_eq_true, if_false] at hv
      grind only
  | false =>
    obtain ⟨fl, hmid, hback⟩ := hparts g.newBlock.1 f hc
    refine ⟨fun hv => ?_, fun ho hv => ?_⟩
    · have hv := fl.live (hlive.mpr hv)
      simp only [Bool.not_false, Bool.or_eq_true, Bool.and_eq_true, beq_self_eq_true, if_true,
        Bool.false_beq, Bool.not_true, Bool.false_eq_true, if_false]
      grind only
    · obtain ⟨hol, hback⟩ := hback ho
      refine hlive.mp (fl.back hol ?_)
      simp only [Bool.not_false, Bool.or_eq_true, Bool.and_eq_true, beq_self_eq_true, if_true,
        Bool.false_beq, Bool.not_true, Bool.false_eq_true, if_false] at hv
      grind only

/-- A block that sets a truth value. -/
theorem liveIn_truth (hg : g.WF) {b e res : Nat} (hb : g.Reserved b) (hX : b ∉ X) (w : Word)
    (hc : Covers F (((g.startBlock b).emit { op := .Mv, dst := some res, a := .imm w }).termJmp e)) :
    LiveIn F X v b ↔ v ≠ res ∧ LiveIn F X v e := by
  have hto := hb.startBlock_wf hg
  have h₁ := emit_grows (k := 0) hto { op := .Mv, dst := some res, a := .imm w }
  have hc₁ := hc.of_grows h₁.wf (termJmp_grows (k := 0) h₁.wf e)
  rw [← live_startBlock hb hX, live_emit hto rfl hc₁, live_termJmp h₁.wf (emit_isSealed _ _) hc]
  simp [Inst.uses, Inst.operands, Val.reg?, eq_comm]

/-- **The two blocks that set the value of a short-circuit operator**, and the one behind them. -/
theorem genTruth_live (hg : g.WF) {res t f e : Nat} (ht : g.Reserved t) (hf : g.Reserved f)
    (he : g.Reserved e) (htf : t ≠ f) (hte : t ≠ e) (hfe : f ≠ e) (htX : t ∉ X) (hfX : f ∉ X)
    (heX : e ∉ X) (hc : Covers F (genTruth res t f e g)) :
    (LiveIn F X v t ↔ v ≠ res ∧ LiveIn F X v e) ∧ (LiveIn F X v f ↔ v ≠ res ∧ LiveIn F X v e) ∧
      (Live F X v (genTruth res t f e g) ↔ LiveIn F X v e) ∧ Covers F g ∧
      (genTruth res t f e g).nextVreg = g.nextVreg := by
  have hto₁ := ht.startBlock_wf hg
  have h₁ := emit_grows (k := 0) hto₁ { op := .Mv, dst := some res, a := .imm 1 }
  have h₂ := h₁.trans hto₁ (termJmp_grows h₁.wf e)
  have hf₂ := h₂.reserved (hf.startBlock htf)
  have he₂ := h₂.reserved (he.startBlock hte)
  have hto₂ := hf₂.startBlock_wf h₂.wf
  have h₃ := emit_grows (k := 0) hto₂ { op := .Mv, dst := some res, a := .imm 0 }
  have h₄ := h₃.trans hto₂ (termJmp_grows h₃.wf e)
  have he₄ := h₄.reserved (he₂.startBlock hfe)
  have hc₄ : Covers F _ := Covers.startBlock hc
  have hc₂ := (hc₄.of_grows hto₂ h₄).startBlock
  refine ⟨liveIn_truth hg ht htX 1 hc₂, liveIn_truth h₂.wf hf₂ hfX 0 hc₄,
    live_startBlock he₄ heX, (hc₂.of_grows hto₁ h₂).startBlock, ?_⟩
  simp only [genTruth, startBlock, termJmp, close_nextVreg, emit_nextVreg]

theorem genLogical_flows {r ct cf : Bool} {cond : Nat → Nat → IRGen → IRGen} (hj : Jumps cond)
    (hf : FlowsCond F X p v B r ct cf cond) (hcan : ct = true ∨ cf = true) :
    Flows F X p v B r false (genLogical cond) := by
  intro g h hc
  rw [genLogical_eq] at hc ⊢
  have hv := fun k => newVreg_grows (k := k) h.wf
  have hblocks := fun k => threeBlocks (k := k) (hv 0).wf
  have hnew := fun k => (hv k).trans h.wf (hblocks k).1
  obtain ⟨-, ht, hf', he⟩ := hblocks 0
  have h₀ := h.next hnew h.opened
  have h₁ := hj 0 g.blocks.length (g.blocks.length + 1) _ (hnew 0).wf
  have hX : ∀ k, g.blocks.length + k ∉ X := fun k hmem => by
    have hlt := h.avoid _ hmem
    omega
  obtain ⟨htrue, hfalse, hend, hcov, hnext⟩ := genTruth_live (X := X) (v := v) h₁.wf
    (h₁.reserved ht) (h₁.reserved hf') (h₁.reserved he) (by simp [newVreg]) (by simp [newVreg])
    (by simp [newVreg]) (hX 0) (hX 1) (hX 2) hc
  have fc := hf h₀ hcov
  have hlive : Live F X v g.newVreg.2.newBlock.2.newBlock.2.newBlock.2 ↔ Live F X v g := by
    have hn₁ := newBlock_grows (k := 0) (hv 0).wf
    have hn₂ := newBlock_grows (k := 0) hn₁.wf
    rw [live_newBlock hn₂.wf, live_newBlock hn₁.wf, live_newBlock (hv 0).wf, live_newVreg]
  have hle : g.nextVreg + 1 ≤ (cond g.blocks.length (g.blocks.length + 1)
    g.newVreg.2.newBlock.2.newBlock.2.newBlock.2).nextVreg := h₁.nextVreg_le
  refine ⟨rfl, iff_of_false (fun hval => ?_) Bool.false_ne_true, fun hlv => ?_, fun ho hlv => ?_⟩
  · have heq : g.nextVreg = v := Option.some.inj hval.1
    omega
  · have hboth : LiveIn F X v (g.blocks.length + 2) → v ≠ g.nextVreg →
        Live F X v (genTruth g.nextVreg g.blocks.length (g.blocks.length + 1)
          (g.blocks.length + 2) (cond g.blocks.length (g.blocks.length + 1)
            g.newVreg.2.newBlock.2.newBlock.2.newBlock.2)) ∧
          ((Val.reg g.nextVreg).reg? = some v → v < g.nextVreg) :=
      fun hl hne => ⟨hend.mpr hl, fun heq => absurd (Option.some.inj heq).symm hne⟩
    rcases fc.live (hlive.mpr hlv) with hlv | ⟨-, hlv⟩ | ⟨-, hlv⟩
    · exact .inl hlv
    · obtain ⟨hne, hl⟩ := htrue.mp hlv
      exact .inr (hboth hl hne)
    · obtain ⟨hne, hl⟩ := hfalse.mp hlv
      exact .inr (hboth hl hne)
  · have ho : v < g.nextVreg ∨ (cond g.blocks.length (g.blocks.length + 1)
        g.newVreg.2.newBlock.2.newBlock.2.newBlock.2).nextVreg ≤ v := by
      rw [← hnext]
      exact ho
    have hne : v ≠ g.nextVreg := by omega
    refine hlive.mp (fc.back ?_ ?_)
    · exact ho.imp_left fun hlt => Nat.lt_of_lt_of_le hlt (hnew 0).nextVreg_le
    · refine hlv.imp_right fun hlv => ?_
      have hl := hend.mp hlv
      rcases hcan with hcan | hcan
      · exact .inl ⟨hcan, htrue.mpr ⟨hne, hl⟩⟩
      · exact .inr ⟨hcan, hfalse.mpr ⟨hne, hl⟩⟩

end Nodes

/-- The jumps of a condition can go somewhere. -/
theorem canBe_or (e : AExpr) : e.canBe true = true ∨ e.canBe false = true := by
  match e with
  | .number note _ | .var note _ _ | .binary note _ _ _ | .call note _ _ _ =>
    cases hc : note.isConst
    · simp [AExpr.canBe, hc]
    · by_cases hv : note.constValue = 0#32 <;> simp [AExpr.canBe, hc, hv]
  | .unary note op operand =>
    cases hc : note.isConst
    · cases op with
      | Not => simpa [AExpr.canBe, hc] using (canBe_or operand).symm
      | Plus | Neg => simp [AExpr.canBe, hc]
    · by_cases hv : note.constValue = 0#32 <;> simp [AExpr.canBe, hc, hv]
  | .logical note isOr lhs rhs =>
    cases hc : note.isConst
    · have hl := canBe_or lhs
      have hr := canBe_or rhs
      cases isOr <;> simp only [AExpr.canBe, hc] <;> grind only
    · by_cases hv : note.constValue = 0#32 <;> simp [AExpr.canBe, hc, hv]

section Trees

variable {F : IRFunc} {X : Finset Nat} {p : SymId → Bool} {v : Nat} {B : List SymId}

mutual
/-- **The code of an expression reads what the tree says**, when its names are bound. -/
theorem genExpr_flows (S : Sema) (e : AExpr) (hB : e.bound S B = true) :
    Flows F X p v B (e.reads S p) (e.isVar S p) (genExpr S e) := by
  match e with
  | .number note _ =>
    cases hc : note.isConst <;> simp only [genExpr, hc, if_true, Bool.false_eq_true, if_false]
    · exact Flows.imm 0
    · exact Flows.imm _
  | .var note _ sym =>
    cases hc : note.isConst <;>
      simp only [genExpr, AExpr.reads, AExpr.isVar, hc, if_true, Bool.false_eq_true, if_false,
        Bool.not_true, Bool.not_false, Bool.false_and, Bool.true_and]
    · exact genVar_flows S sym fun hl => by simpa [AExpr.bound, hc, hl] using hB
    · exact Flows.imm _
  | .binary note op lhs rhs =>
    cases hc : note.isConst <;>
      simp only [genExpr, AExpr.reads, AExpr.isVar, hc, if_true, Bool.false_eq_true, if_false,
        Bool.not_true, Bool.not_false, Bool.false_and, Bool.true_and]
    · simp only [AExpr.bound, hc, Bool.false_or, Bool.and_eq_true] at hB
      exact genBinary_flows op (genExpr_lowers S lhs) (genExpr_lowers S rhs)
        (genExpr_flows S lhs hB.1) (genExpr_flows S rhs hB.2)
    · exact Flows.imm _
  | .logical note isOr lhs rhs =>
    have hcan := canBe_or (.logical note isOr lhs rhs)
    cases hc : note.isConst <;>
      simp only [genExpr, AExpr.reads, AExpr.isVar, hc, if_true, Bool.false_eq_true, if_false,
        Bool.not_true, Bool.not_false, Bool.false_and, Bool.true_and]
    · simp only [AExpr.bound, hc, Bool.false_or, Bool.and_eq_true] at hB
      simp only [AExpr.canBe, hc, Bool.false_eq_true, if_false, Bool.not_true, Bool.not_false]
        at hcan
      exact genLogical_flows (genLogicalCond_jumps isOr (genCond_jumps S lhs) (genCond_jumps S rhs))
        (genLogicalCond_flows isOr (lhs.canBe ·) (rhs.canBe ·) (genCond_jumps S lhs)
          (genCond_jumps S rhs) (genCond_flows S lhs hB.1) (genCond_flows S rhs hB.2)) hcan
    · exact Flows.imm _
  | .unary note op operand =>
    cases hc : note.isConst
    · simp only [AExpr.bound, hc, Bool.false_or] at hB
      have h : Flows F X p v B _ _ (genUnary op (genExpr S operand)) :=
        genUnary_flows op (genExpr_lowers S operand) (genExpr_flows S operand hB)
      cases op <;>
        simpa only [genExpr, AExpr.reads, AExpr.isVar, hc, Bool.false_eq_true, if_false,
          Bool.not_false, Bool.true_and, decide_true, decide_false, reduceCtorEq, if_true,
          Bool.false_and] using h
    · cases op <;> simp only [genExpr, AExpr.reads, AExpr.isVar, hc, if_true, Bool.not_true,
        Bool.false_and] <;> exact Flows.imm _
  | .call note _ args target =>
    cases hc : note.isConst <;>
      simp only [genExpr, AExpr.reads, AExpr.isVar, hc, if_true, Bool.false_eq_true, if_false,
        Bool.not_true, Bool.not_false, Bool.false_and, Bool.true_and]
    · simp only [AExpr.bound, hc, Bool.false_or] at hB
      exact genCall_flows target (genArgs_lowers S args) (genArgs_flows S args hB)
    · exact Flows.imm _
/-- The same for the arguments of a call. -/
theorem genArgs_flows (S : Sema) (es : List AExpr) (hB : AExpr.boundAll S B es = true) :
    FlowsAll F X p v B (AExpr.argsRead S p es) (genArgs S es) := by
  intro g h hc
  match es with
  | [] =>
    simp only [genArgs, AExpr.argsRead]
    exact ⟨h.opened, fun hv => .inr ⟨hv, by simp⟩, fun _ _ hv => hv.resolve_left Bool.false_ne_true⟩
  | e :: es =>
    simp only [AExpr.boundAll, Bool.and_eq_true] at hB
    have h₁ := fun k => genExpr_lowers S e k g h.wf
    have h₂ := genArgs_lowers S es 0 _ (h₁ 0).wf
    have fe := genExpr_flows S e hB.1 h (hc.of_grows (h₁ 0).wf h₂)
    have fes := genArgs_flows S es hB.2 (h.next h₁ fe.opened) hc
    refine ⟨fes.opened, fun hv => ?_, fun ho huse hv => ?_⟩
    · rcases fe.live hv with hv | ⟨hv, hn⟩
      · exact .inl (by simp [AExpr.argsRead, hv])
      by_cases ha : (genExpr S e g).1.reg? = some v
      · exact .inl (by simp [AExpr.argsRead, fe.value.mp ⟨ha, hn ha⟩])
      rcases fes.live hv with hv | ⟨hv, hns⟩
      · exact .inl (by simp [AExpr.argsRead, hv])
      · refine .inr ⟨hv, fun a hmem => ?_⟩
        rcases List.mem_cons.mp hmem with rfl | hmem
        · exact ha
        · exact hns a hmem
    · have hol := ho.left h₂.nextVreg_le
      have hback := fes.back (ho.right (h₁ 0).nextVreg_le)
        fun ⟨a, ha, heq⟩ => huse ⟨a, List.mem_cons_of_mem _ ha, heq⟩
      simp only [AExpr.argsRead, Bool.or_eq_true] at hv
      rcases hv with ((hv | hv) | hv) | hv
      · exact fe.back hol (.inl hv)
      · have hlive := huse ⟨_, List.mem_cons_self, (fe.value.mpr hv).1⟩
        exact fe.back hol (.inr (hback (.inr hlive)))
      · exact fe.back hol (.inr (hback (.inl hv)))
      · exact fe.back hol (.inr (hback (.inr hv)))
/-- **The code of a condition reads what the tree says**, and jumps where the tree says. -/
theorem genCond_flows (S : Sema) (e : AExpr) (hB : e.bound S B = true) :
    FlowsCond F X p v B (e.condReads S p) (e.canBe true) (e.canBe false) (genCond S e) := by
  match e with
  | .number note _ =>
    cases hc : note.isConst <;>
      simp only [genCond, AExpr.condReads, AExpr.canBe, hc, if_true, Bool.false_eq_true, if_false]
    · exact genBranch_flows (fun _ _ hg => .refl hg) (Flows.imm 0)
    · exact genConstCond_flows _
  | .var note name sym =>
    cases hc : note.isConst <;>
      simp only [genCond, AExpr.condReads, AExpr.isVar, AExpr.canBe, hc, if_true,
        Bool.false_eq_true, if_false, Bool.not_true, Bool.not_false, Bool.false_and, Bool.true_and]
    · exact genBranch_flows (genVar_lowers S sym)
        (genVar_flows S sym fun hl => by simpa [AExpr.bound, hc, hl] using hB)
    · exact genConstCond_flows _
  | .binary note op lhs rhs =>
    cases hc : note.isConst <;>
      simp only [genCond, AExpr.condReads, AExpr.canBe, hc, if_true, Bool.false_eq_true, if_false,
        Bool.not_true, Bool.not_false, Bool.false_and, Bool.true_and]
    · simp only [AExpr.bound, hc, Bool.false_or, Bool.and_eq_true] at hB
      have h : FlowsCond F X p v B _ _ _ (genBranch (genBinary op (genExpr S lhs) (genExpr S rhs))) :=
        genBranch_flows (genBinary_lowers op (genExpr_lowers S lhs) (genExpr_lowers S rhs))
          (genBinary_flows op (genExpr_lowers S lhs) (genExpr_lowers S rhs)
            (genExpr_flows S lhs hB.1) (genExpr_flows S rhs hB.2))
      rwa [Bool.or_false] at h
    · exact genConstCond_flows _
  | .logical note isOr lhs rhs =>
    cases hc : note.isConst <;>
      simp only [genCond, AExpr.condReads, AExpr.canBe, hc, if_true, Bool.false_eq_true, if_false,
        Bool.not_true, Bool.not_false, Bool.false_and, Bool.true_and]
    · simp only [AExpr.bound, hc, Bool.false_or, Bool.and_eq_true] at hB
      exact genLogicalCond_flows isOr (lhs.canBe ·) (rhs.canBe ·)
        (genCond_jumps S lhs) (genCond_jumps S rhs) (genCond_flows S lhs hB.1)
        (genCond_flows S rhs hB.2)
    · exact genConstCond_flows _
  | .unary note op operand =>
    cases hc : note.isConst
    · simp only [AExpr.bound, hc, Bool.false_or] at hB
      cases op with
      | Not =>
        simp only [genCond, AExpr.condReads, AExpr.canBe, hc, Bool.false_eq_true, if_false,
          Bool.not_false, Bool.true_and, Bool.not_true]
        exact (genCond_flows S operand hB).swap
      | Plus =>
        have h : FlowsCond F X p v B _ _ _ (genBranch (genUnary .Plus (genExpr S operand))) :=
          genBranch_flows (genUnary_lowers _ (genExpr_lowers S operand))
            (genUnary_flows .Plus (genExpr_lowers S operand) (genExpr_flows S operand hB))
        simpa [genCond, AExpr.condReads, AExpr.canBe, hc] using h
      | Neg =>
        have h : FlowsCond F X p v B _ _ _ (genBranch (genUnary .Neg (genExpr S operand))) :=
          genBranch_flows (genUnary_lowers _ (genExpr_lowers S operand))
            (genUnary_flows .Neg (genExpr_lowers S operand) (genExpr_flows S operand hB))
        simpa [genCond, AExpr.condReads, AExpr.canBe, hc] using h
    · cases op <;> simp only [genCond, AExpr.condReads, AExpr.canBe, hc, if_true, Bool.not_true,
        Bool.false_and] <;> exact genConstCond_flows _
  | .call note _ args target =>
    cases hc : note.isConst <;>
      simp only [genCond, AExpr.condReads, AExpr.canBe, hc, if_true, Bool.false_eq_true, if_false,
        Bool.not_true, Bool.not_false, Bool.false_and, Bool.true_and]
    · simp only [AExpr.bound, hc, Bool.false_or] at hB
      have h : FlowsCond F X p v B _ _ _ (genBranch (genCall target (genArgs S args))) :=
        genBranch_flows (genCall_lowers target (genArgs_lowers S args))
          (genCall_flows target (genArgs_lowers S args) (genArgs_flows S args hB))
      rwa [Bool.or_false] at h
    · exact genConstCond_flows _
end

end Trees

end IRGen

end ToyC
