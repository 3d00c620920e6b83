import ToyC.IRGenLive

/-!
# What the generated statements read first

The code of an analysed statement reads a vreg first, and lets it through, where the paths through
the tree say so of its variable (`genStmt_flows`). Each declaration has a symbol of its own, so the
variables a vreg belongs to are the same all along (`Extends`); and what is not the vreg of a
variable is written in front of each use.
-/

namespace ToyC

/-! ## Paths -/

namespace Paths

/-- **Whether something is live in front of code with these paths**, from whether it is live behind
it, and where its jumps out of a loop lead. -/
def Reach (P : Paths) (behind brk cont : Prop) : Prop :=
  P.reads = true ∨ P.passes = true ∧ behind ∨ P.breaks = true ∧ brk ∨ P.continues = true ∧ cont

variable {P Q : Paths} {behind behind' brk brk' cont cont' : Prop}

theorem Reach.imp (h : P.Reach behind brk cont) (hb : P.passes = true → behind → behind')
    (hk : brk → brk') (hc : cont → cont') : P.Reach behind' brk' cont' :=
  h.imp_right fun h => h.imp (fun h => ⟨h.1, hb h.1 h.2⟩)
    fun h => h.imp (.imp_right hk) (.imp_right hc)

theorem reach_or : (P.or Q).Reach behind brk cont ↔
    P.Reach behind brk cont ∨ Q.Reach behind brk cont := by
  simp only [Reach, Paths.or, Bool.or_eq_true]
  tauto

theorem reach_guard {c : Bool} :
    (P.guard c).Reach behind brk cont ↔ c = true ∧ P.Reach behind brk cont := by
  simp only [Reach, Paths.guard, Bool.and_eq_true]
  tauto

theorem reach_seq : (P.seq Q).Reach behind brk cont ↔
    P.Reach (Q.Reach behind brk cont) brk cont := by
  rw [Paths.seq, reach_or, reach_guard]
  simp only [Reach, Bool.false_eq_true, false_and, false_or]
  tauto

theorem reach_loop {cond canTrue canFalse : Bool} :
    (Paths.loop cond canTrue canFalse P).Reach behind brk cont ↔
      cond = true ∨ canTrue = true ∧ P.Reach False behind False ∨ canFalse = true ∧ behind := by
  simp only [Reach, Paths.loop, Bool.or_eq_true, Bool.and_eq_true, Bool.false_eq_true, false_and,
    or_false, and_false, false_or]
  tauto

end Paths

namespace IRGen

open Sema

/-! ## The vregs of new variables -/

/-- The variables that have vregs are among the first symbols. -/
def Fresh (g : IRGen) (k : Nat) : Prop := ∀ id r, g.irId.lookup id = some r → id < k

/-- **Some variables got vregs**: new ones, for the symbols from `k` up to `k'`. -/
structure Extends (k k' : Nat) (g g' : IRGen) : Prop where
  kept : ∀ id r, g.irId.lookup id = some r → g'.irId.lookup id = some r
  added : ∀ id r, g'.irId.lookup id = some r →
    g.irId.lookup id = some r ∨ g.nextVreg ≤ r ∧ k ≤ id ∧ id < k'
  nextVreg_le : g.nextVreg ≤ g'.nextVreg

/-- A vreg that belongs to a variable, or was not given out yet. -/
def Named (v : Nat) (g : IRGen) : Prop := (∃ id, g.irId.lookup id = some v) ∨ g.nextVreg ≤ v

section Extends

variable {k k' k'' v : Nat} {p : SymId → Bool} {g g' g'' : IRGen}

theorem Extends.of_lookup (h : ∀ id, g'.irId.lookup id = g.irId.lookup id)
    (hle : g.nextVreg ≤ g'.nextVreg) : Extends k k' g g' :=
  ⟨fun id _ hr => (h id).trans hr, fun id _ hr => .inl ((h id).symm.trans hr), hle⟩

/-- Code that gives no variable a vreg. -/
theorem Extends.of_grows (h : ∀ j, Grows j g g') : Extends k k' g g' :=
  .of_lookup (fun id => (h (id + 1)).irId id (Nat.lt_succ_self _)) (h 0).nextVreg_le

theorem Extends.trans (h : Extends k k' g g') (h' : Extends k' k'' g' g'') (hk : k ≤ k')
    (hk' : k' ≤ k'') : Extends k k'' g g'' where
  kept id r hr := h'.kept id r (h.kept id r hr)
  added id r hr := by
    rcases h'.added id r hr with hr | ⟨hle, hlo, hhi⟩
    · exact (h.added id r hr).imp_right fun ⟨hle, hlo, hhi⟩ =>
        ⟨hle, hlo, Nat.lt_of_lt_of_le hhi hk'⟩
    · exact .inr ⟨Nat.le_trans h.nextVreg_le hle, Nat.le_trans hk hlo, hhi⟩
  nextVreg_le := Nat.le_trans h.nextVreg_le h'.nextVreg_le

theorem Extends.fresh (h : Extends k k' g g') (hk : k ≤ k') (hg : g.Fresh k) : g'.Fresh k' :=
  fun id r hr => (h.added id r hr).elim (fun hr => Nat.lt_of_lt_of_le (hg id r hr) hk) (·.2.2)

theorem Extends.binds {B : List SymId} (h : Extends k k' g g') (hB : g.Binds B) : g'.Binds B := by
  intro sym hsym
  obtain ⟨r, hr⟩ := hB sym hsym
  exact ⟨r, h.kept sym r hr⟩

/-- What a vreg belongs to behind some code, it belonged to in front of it. -/
theorem Extends.names (h : Extends k k' g g') (hp : g'.Names p v) : g.Names p v :=
  fun sym r hr => hp sym r (h.kept sym r hr)

theorem Extends.named (h : Extends k k' g g') (hv : Named v g') : Named v g := by
  rcases hv with ⟨id, hid⟩ | hle
  · exact (h.added id v hid).elim (fun hr => .inl ⟨id, hr⟩) fun hr => .inr hr.1
  · exact .inr (Nat.le_trans h.nextVreg_le hle)

/-- Code that gives no variable a vreg does not write it. -/
theorem Named.outside (hg : g.WF) (h : ∀ j, Grows j g g') (hv : Named v g') : Outside v g g' := by
  rcases hv with ⟨id, hid⟩ | hle
  · exact .inl (hg.irId_lt id v (((h (id + 1)).irId id (Nat.lt_succ_self _)).symm.trans hid))
  · exact .inr hle

end Extends

/-- The vreg of a new variable. -/
theorem bindVreg_extends {k : SymId} {g : IRGen} (hg : g.Fresh k) :
    Extends k (k + 1) g { g.newVreg.2 with irId := (k, g.nextVreg) :: g.irId } ∧
      ({ g.newVreg.2 with irId := (k, g.nextVreg) :: g.irId } : IRGen).irId.lookup k =
        some g.nextVreg := by
  refine ⟨⟨fun id r hr => ?_, fun id r hr => ?_, Nat.le_succ _⟩, ?_⟩
  · show List.lookup id ((k, g.nextVreg) :: g.irId) = _
    rw [lookup_bindVreg, if_neg (Nat.ne_of_lt (hg id r hr)), hr]
  · replace hr : List.lookup id ((k, g.nextVreg) :: g.irId) = some r := hr
    rw [lookup_bindVreg] at hr
    split at hr
    · rename_i heq
      cases hr
      exact .inr ⟨Nat.le_refl _, Nat.le_of_eq heq.symm, Nat.lt_succ_of_le (Nat.le_of_eq heq)⟩
    · exact .inl hr
  · exact (lookup_bindVreg g.irId k g.nextVreg k).trans (if_pos rfl)

/-! ## Statements -/

section Contracts

variable (F : IRFunc) (p : SymId → Bool) (v : Nat)

/-- **What code for a statement reads first.** -/
structure FlowStmt (X : Finset Nat) (P : Paths) (g g' : IRGen) : Prop where
  opened : P.passes = true → g'.isSealed = false
  live : Live F X v g → P.Reach (Live F X v g') (LiveIn F X v (g.loops.headD default).breakBB)
    (LiveIn F X v (g.loops.headD default).continueBB)
  back : Named v g' → P.Reach (Live F X v g') (LiveIn F X v (g.loops.headD default).breakBB)
    (LiveIn F X v (g.loops.headD default).continueBB) → Live F X v g

/-- **A way of lowering a statement whose code reads so**, where the variables in `B` have vregs, and
those in `B'` have them behind it. -/
def FlowsStmt (k k' : Nat) (B B' : List SymId) (P : Paths) (stmt : IRGen → IRGen) : Prop :=
  ∀ ⦃X : Finset Nat⦄ ⦃g : IRGen⦄, g.WF → g.Fresh k → g.Binds B → (∀ b ∈ X, b < g.blocks.length) →
    Extends k k' g (stmt g) ∧ (stmt g).Binds B' ∧
      (g.isSealed = false → (stmt g).Names p v → Covers F (stmt g) →
        FlowStmt F v X P g (stmt g))

end Contracts

section Statements

variable {F : IRFunc} {X : Finset Nat} {p : SymId → Bool} {v k k₁ k' : Nat} {B B₁ B' : List SymId}
  {P Q : Paths}

/-- Nothing. -/
theorem FlowsStmt.skip : FlowsStmt F p v k k' B B { passes := true } fun g => g := by
  intro X g hg _ hB _
  refine ⟨.of_lookup (fun _ => rfl) (Nat.le_refl _), hB, fun hopen _ _ => ⟨fun _ => hopen, ?_, ?_⟩⟩
  · exact fun hv => .inr (.inl ⟨rfl, hv⟩)
  · intro _ hv
    simpa [Paths.Reach] using hv

/-- For more symbols than the statement has. -/
theorem FlowsStmt.widen {stmt : IRGen → IRGen} {j j' : Nat} (h : FlowsStmt F p v k k' B B' P stmt)
    (hj : j ≤ k) (hj' : k' ≤ j') : FlowsStmt F p v j j' B B' P stmt := by
  intro X g hg hfresh hb hX
  obtain ⟨hext, hrest⟩ := h hg (fun id r hr => Nat.lt_of_lt_of_le (hfresh id r hr) hj) hb hX
  refine ⟨⟨hext.kept, fun id r hr => (hext.added id r hr).imp_right fun ⟨hle, hlo, hhi⟩ => ?_,
    hext.nextVreg_le⟩, hrest⟩
  exact ⟨hle, Nat.le_trans hj hlo, Nat.lt_of_lt_of_le hhi hj'⟩

/-- **One statement after the other.** -/
theorem FlowsStmt.seq {first next : IRGen → IRGen} (h₁ : FlowsStmt F p v k k₁ B B₁ P first)
    (h₂ : FlowsStmt F p v k₁ k' B₁ B' Q next) (hw₁ : ∀ j ≤ k, Writes j first)
    (hw₂ : ∀ j ≤ k₁, Writes j next) (hk : k ≤ k₁) (hk' : k₁ ≤ k') :
    FlowsStmt F p v k k' B B' (P.seq Q) fun g => next (first g) := by
  intro X g hg hfresh hB hX
  have hgrows := hw₁ 0 (Nat.zero_le _) g hg
  have hgrows₂ := hw₂ 0 (Nat.zero_le _) _ hgrows.wf
  obtain ⟨hext, hB₁, hflow⟩ := h₁ hg hfresh hB hX
  obtain ⟨hext₂, hB', hflow₂⟩ := h₂ hgrows.wf (hext.fresh hk hfresh) hB₁
    fun b hb => Nat.lt_of_lt_of_le (hX b hb) hgrows.length_le
  refine ⟨hext.trans hext₂ hk hk', hB', fun hopen hnames hc => ?_⟩
  have f₁ := hflow hopen (hext₂.names hnames) (hc.of_grows hgrows.wf hgrows₂)
  have f₂ := fun hp : P.passes = true => hflow₂ (f₁.opened hp) hnames hc
  have hloops := hgrows.loops
  refine ⟨fun hpass => ?_, fun hv => ?_, fun hn hv => ?_⟩
  · simp only [Paths.seq, Paths.or, Paths.guard, Bool.false_or, Bool.and_eq_true] at hpass
    exact (f₂ hpass.1).opened hpass.2
  · rw [Paths.reach_seq]
    exact (f₁.live hv).imp (fun hp hv => hloops ▸ (f₂ hp).live hv) id id
  · rw [Paths.reach_seq] at hv
    exact f₁.back (hext₂.named hn) (hv.imp (fun hp hv => (f₂ hp).back hn (hloops ▸ hv)) id id)

/-- The code of a value that is a variable's only loads it, if it is global. -/
theorem genExpr_name (S : Sema) {e : AExpr} (he : e.isName = true) (g : IRGen) :
    e.reads S p = false ∧ ((genExpr S e g).2 = g ∨ ∃ gid, (genExpr S e g).2 =
      g.newVreg.2.emit { op := .LoadGlobal, dst := some g.nextVreg, gid }) := by
  match e with
  | .var note _ sym =>
    refine ⟨rfl, ?_⟩
    cases hc : note.isConst <;> simp only [genExpr, hc, if_true, Bool.false_eq_true, if_false]
    · unfold genVar
      split
      · exact .inr ⟨_, rfl⟩
      · exact .inl rfl
    · exact .inl trivial
  | .unary note .Plus operand =>
    obtain ⟨hreads, hgen⟩ := genExpr_name S (e := operand) he g
    refine ⟨by simp [AExpr.reads, hreads], ?_⟩
    cases hc : note.isConst <;> simp only [genExpr, hc, if_true, Bool.false_eq_true, if_false]
    · exact hgen
    · exact .inl trivial

theorem genExprStmt_flows (S : Sema) (e : AExpr) (he : e.isName = true ∨ e.bound S B = true) :
    FlowsStmt F p v k k' B B { reads := e.reads S p, passes := true } fun g => (genExpr S e g).2 := by
  intro X g hg hfresh hB hX
  have hgrows := fun j => genExpr_lowers S e j g hg
  have hext : Extends k k' g (genExpr S e g).2 := .of_grows hgrows
  refine ⟨hext, hext.binds hB, fun hopen hnames hc => ?_⟩
  dsimp only at hc ⊢
  rcases he with he | he
  · obtain ⟨hreads, hgen⟩ := genExpr_name (p := p) S he g
    rw [hreads]
    rcases hgen with hgen | ⟨gid, hgen⟩
    · rw [hgen]
      exact ⟨fun _ => hopen, fun hv => .inr (.inl ⟨rfl, hv⟩),
        fun _ hv => by simpa [Paths.Reach] using hv⟩
    · rw [hgen] at hc ⊢
      obtain ⟨hlive, hout, -⟩ := emit_flow (X := X) (v := v) (Nat.le_refl _) hg hopen rfl hc
      refine ⟨fun _ => emit_isSealed _ _, fun hv => ?_, fun hn hv => hlive.mpr (.inr ⟨?_, ?_⟩)⟩
      · exact .inr (.inl ⟨rfl, ((hlive.mp hv).resolve_left (by simp [Inst.uses, Inst.operands])).2⟩)
      · exact hout (hn.outside hg (fun j => hgen ▸ hgrows j))
      · simpa [Paths.Reach] using hv
  · have fe := genExpr_flows S e he ⟨hg, hopen, hext.names hnames, hB, hX⟩ hc
    refine ⟨fun _ => fe.opened, fun hv => ?_, fun hn hv => ?_⟩
    · exact (fe.live hv).imp id fun hv => .inl ⟨rfl, hv.1⟩
    · exact fe.back (hn.outside hg hgrows) (by simpa [Paths.Reach] using hv)

theorem genVarDecl_flows (S : Sema) (init : AExpr) {sym : SymId}
    (hB : init.bound S (sym :: B) = true) :
    FlowsStmt F p v sym (sym + 1) B (sym :: B) { reads := init.uses S p, passes := !p sym }
      (genVarDecl S init sym) := by
  intro X g hg hfresh hb hX
  obtain ⟨hbind, hsym⟩ := bindVreg_extends hfresh
  have hbindG := bindVreg_grows hg (Nat.zero_le sym)
  let g₁ : IRGen := { g.newVreg.2 with irId := (sym, g.nextVreg) :: g.irId }
  let g₂ := (genExpr S init g₁).2
  have hgrows₁ := fun j => genExpr_lowers S init j g₁ hbindG.wf
  have hgrows₂ := fun j => emit_grows (k := j) (hgrows₁ 0).wf
    { op := .Mv, dst := some g.nextVreg, a := (genExpr S init g₁).1 }
  have hgrows := fun j => (hgrows₁ j).trans hbindG.wf (hgrows₂ j)
  have hrest : Extends (sym + 1) (sym + 1) g₁ (genVarDecl S init sym g) := .of_grows hgrows
  have hb₁ : g₁.Binds (sym :: B) := by
    intro x hx
    rcases List.mem_cons.mp hx with rfl | hx
    · exact ⟨_, hsym⟩
    · exact hbind.binds hb x hx
  refine ⟨hbind.trans hrest (Nat.le_succ _) (Nat.le_refl _), hrest.binds hb₁,
    fun hopen hnames hc => ?_⟩
  have hat : At X p v (sym :: B) g₁ := ⟨hbindG.wf, hopen, hrest.names hnames, hb₁, hX⟩
  have fe := genExpr_flows S init hB hat (hc.of_grows (hgrows₁ 0).wf (hgrows₂ 0))
  have hlive : Live F X v g₂ ↔ (genExpr S init g₁).1.reg? = some v ∨
      some g.nextVreg ≠ some v ∧ Live F X v (genVarDecl S init sym g) := by
    rw [live_emit (hgrows₁ 0).wf fe.opened hc]
    simp only [Inst.uses, Inst.operands, Option.toList_none, List.append_nil, List.mem_filterMap,
      List.mem_singleton, exists_eq_left]
    exact Iff.rfl
  have hlive₁ : Live F X v g₁ ↔ Live F X v g := live_congr rfl rfl
  have hp : p sym = true ↔ g.nextVreg = v := hat.names sym _ hsym
  refine ⟨fun _ => emit_isSealed _ _, fun hv => ?_, fun hn hv => ?_⟩
  · rcases fe.live (hlive₁.mpr hv) with hv | ⟨hv, hnew⟩
    · exact .inl (by simp [AExpr.uses, hv])
    rcases hlive.mp hv with ha | ⟨hne, hv⟩
    · exact .inl (by simp [AExpr.uses, fe.value.mp ⟨ha, hnew ha⟩])
    · refine .inr (.inl ⟨?_, hv⟩)
      rw [Bool.not_eq_true', ← Bool.not_eq_true, hp]
      exact fun heq => hne (congrArg some heq)
  · have hout := hn.outside hbindG.wf hgrows
    have hout₁ := hout.left (hgrows₂ 0).nextVreg_le
    refine hlive₁.mp ?_
    simp only [Paths.Reach, AExpr.uses, Bool.or_eq_true, Bool.not_eq_true', Bool.false_eq_true,
      false_and, or_false] at hv
    rcases hv with (hv | hv) | ⟨hne, hv⟩
    · exact fe.back hout₁ (.inl hv)
    · exact fe.back hout₁ (.inr (hlive.mpr (.inl (fe.value.mpr hv).1)))
    · refine fe.back hout₁ (.inr (hlive.mpr (.inr ⟨fun heq => ?_, hv⟩)))
      rw [hp.mpr (Option.some.inj heq)] at hne
      cases hne

theorem genAssign_flows (S : Sema) (sym : SymId) (value : AExpr) (hv : value.bound S B = true)
    (hB : isLocal S sym = true → sym ∈ B) :
    FlowsStmt F p v k k' B B
      { reads := value.uses S p, passes := !(isLocal S sym && p sym) } (genAssign S sym value) := by
  intro X g hg hfresh hb hX
  have hgrows₁ := fun j => genExpr_lowers S value j g hg
  have hgrows := fun j => genAssign_writes j S sym value g hg
  have hext : Extends k k' g (genAssign S sym value g) := .of_grows hgrows
  refine ⟨hext, hext.binds hb, fun hopen hnames hc => ?_⟩
  have hat : At X p v B g := ⟨hg, hopen, hext.names hnames, hb, hX⟩
  -- Either way an instruction follows that uses the value.
  obtain ⟨inst, hgen, huses, hdst⟩ : ∃ inst : Inst,
      genAssign S sym value g = (genExpr S value g).2.emit inst ∧
        (v ∈ inst.uses ↔ (genExpr S value g).1.reg? = some v) ∧
        (inst.dst = some v ↔ (isLocal S sym && p sym) = true) := by
    by_cases hk : (S.symbol sym).kind = .GlobalVar
    · refine ⟨_, if_pos hk, ?_, ?_⟩
      · simp [Inst.uses, Inst.operands]
      · simp [isLocal, hk]
    · have hlocal : isLocal S sym = true := by simp [isLocal, hk]
      obtain ⟨r, hr⟩ := hb sym (hB hlocal)
      refine ⟨_, if_neg hk, ?_, ?_⟩
      · simp [Inst.uses, Inst.operands]
      · rw [vregOf, (hgrows₁ (sym + 1)).irId sym (Nat.lt_succ_self _), hr, hlocal, Bool.true_and,
          hat.names sym r hr]
        simp
  rw [hgen] at hc ⊢
  have hgrows₂ := emit_grows (k := 0) (hgrows₁ 0).wf inst
  have fe := genExpr_flows S value hv hat (hc.of_grows (hgrows₁ 0).wf hgrows₂)
  have hlive := live_emit (X := X) (v := v) (hgrows₁ 0).wf fe.opened hc
  rw [huses, ne_eq, hdst] at hlive
  refine ⟨fun _ => emit_isSealed _ _, fun hv => ?_, fun hn hv => ?_⟩
  · rcases fe.live hv with hv | ⟨hv, hnew⟩
    · exact .inl (by simp [AExpr.uses, hv])
    rcases hlive.mp hv with ha | ⟨hne, hv⟩
    · exact .inl (by simp [AExpr.uses, fe.value.mp ⟨ha, hnew ha⟩])
    · refine .inr (.inl ⟨?_, hv⟩)
      rw [Bool.not_eq_true', ← Bool.not_eq_true]
      exact hne
  · have hout := (hn.outside hg fun j => hgen ▸ hgrows j).left hgrows₂.nextVreg_le
    simp only [Paths.Reach, AExpr.uses, Bool.or_eq_true, Bool.not_eq_true', Bool.false_eq_true,
      false_and, or_false] at hv
    rcases hv with (hv | hv) | ⟨hne, hv⟩
    · exact fe.back hout (.inl hv)
    · exact fe.back hout (.inr (hlive.mpr (.inl (fe.value.mpr hv).1)))
    · exact fe.back hout (.inr (hlive.mpr (.inr ⟨by simp [hne], hv⟩)))

/-! ### Jumps -/

theorem termJmp_irId (g : IRGen) (t : Nat) : (g.termJmp t).irId = g.irId := close_irId g _

theorem termJmp_nextVreg (g : IRGen) (t : Nat) : (g.termJmp t).nextVreg = g.nextVreg :=
  close_nextVreg g _

/-- **A branch that a jump to the block behind it ends.** -/
theorem branch_flow {g g' : IRGen} (hg' : g'.WF) {b j : Nat} {P : Paths}
    (hb : g.Reserved b) (hX : b ∉ X) (h : FlowStmt F v X P (g.startBlock b) g')
    (hc : Covers F (g'.termJmp j)) :
    (LiveIn F X v b → P.Reach (LiveIn F X v j) (LiveIn F X v (g.loops.headD default).breakBB)
      (LiveIn F X v (g.loops.headD default).continueBB)) ∧
    (Named v g' → P.Reach (LiveIn F X v j) (LiveIn F X v (g.loops.headD default).breakBB)
      (LiveIn F X v (g.loops.headD default).continueBB) → LiveIn F X v b) := by
  have hstart := live_startBlock (F := F) (v := v) hb hX
  have hjmp := fun hp : P.passes = true => live_termJmp (X := X) (v := v) hg' (h.opened hp) hc
  refine ⟨fun hv => ?_, fun hn hv => hstart.mp (h.back hn ?_)⟩
  · exact (h.live (hstart.mpr hv)).imp (fun hp hv => (hjmp hp).mp hv) id id
  · exact hv.imp (fun hp hv => (hjmp hp).mpr hv) id id

theorem genIf_flows {r ct cf : Bool} {cond : Nat → Nat → IRGen → IRGen} {then_ : IRGen → IRGen}
    (hk : k ≤ k') (hj : Jumps cond)
    (hw : ∀ j ≤ k, Writes j then_) (hcond : ∀ X, FlowsCond F X p v B r ct cf cond)
    (hthen : FlowsStmt F p v k k' B B' P then_) :
    FlowsStmt F p v k k' B B' (({ reads := r, passes := cf } : Paths).or (P.guard ct))
      (genIf cond then_) := by
  intro X g hg hfresh hb hX
  obtain ⟨hnew, htBB, hjBB⟩ := twoBlocks (k := 0) hg
  have hnew' := fun j => (twoBlocks (k := j) hg).1
  let b := g.blocks.length
  let g₁ := cond b (b + 1) g.newBlock.2.newBlock.2
  let g₂ := then_ (g₁.startBlock b)
  have h₁ := fun j => hj j b (b + 1) _ hnew.wf
  have hto₁ := fun j => ((hnew' j).trans hg (h₁ j)).startBlock (Nat.le_refl b)
    ((h₁ j).reserved htBB)
  have h₂ := hw 0 (Nat.zero_le _) _ (hto₁ 0).wf
  have h₃ := h₂.trans (hto₁ 0).wf (termJmp_grows h₂.wf (b + 1))
  have hj₃ := h₃.reserved (((h₁ 0).reserved hjBB).startBlock (by omega))
  have hext₁ : Extends k k g (g₁.startBlock b) := .of_grows hto₁
  obtain ⟨hext₂, hB', hflow⟩ := hthen (hto₁ 0).wf (hext₁.fresh (Nat.le_refl _) hfresh)
    (hext₁.binds hb) fun c hc => Nat.lt_of_lt_of_le (hX c hc) (hto₁ 0).length_le
  have hgen : genIf cond then_ g = (g₂.termJmp (b + 1)).startBlock (b + 1) := genIf_eq ..
  have hirId := termJmp_irId g₂ (b + 1)
  have hext₃ : Extends k' k' g₂ (genIf cond then_ g) := by
    rw [hgen]
    exact .of_lookup (fun id => congrArg (List.lookup id) hirId)
      (Nat.le_of_eq (termJmp_nextVreg g₂ (b + 1)).symm)
  refine ⟨(hext₁.trans hext₂ (Nat.le_refl _) hk).trans hext₃ hk (Nat.le_refl _), hext₃.binds hB',
    fun hopen hnames hc => ?_⟩
  have hnames₂ := hext₃.names hnames
  have hnames₁ := hext₁.names (hext₂.names hnames₂)
  rw [hgen] at hc ⊢
  have hc₂ := hc.startBlock.of_grows h₂.wf (termJmp_grows (k := 0) h₂.wf (b + 1))
  have hat : At X p v B g := ⟨hg, hopen, hnames₁, hb, hX⟩
  have fc := hcond X (hat.next hnew' hopen) (hc₂.of_grows (hto₁ 0).wf h₂).startBlock
  have hbX : ∀ i, b + i ∉ X := fun i hmem => by
    have hlt := hX _ hmem
    omega
  obtain ⟨hlive, hback⟩ := branch_flow h₂.wf ((h₁ 0).reserved htBB) (hbX 0)
    (hflow rfl hnames₂ hc₂) hc.startBlock
  have hend := live_startBlock (F := F) (v := v) hj₃ (hbX 1)
  have hstart : Live F X v g.newBlock.2.newBlock.2 ↔ Live F X v g := by
    have hn₁ := newBlock_grows (k := 0) hg
    rw [live_newBlock hn₁.wf, live_newBlock hg]
  have hloops : g₁.loops = g.loops := (h₁ 0).loops.trans hnew.loops
  rw [hloops] at hlive hback
  refine ⟨fun _ => rfl, fun hv => ?_, fun hn hv => ?_⟩
  · rw [Paths.reach_or, Paths.reach_guard]
    rcases fc.live (hstart.mpr hv) with hv | ⟨ht, hv⟩ | ⟨hf, hv⟩
    · exact .inl (.inl hv)
    · exact .inr ⟨ht, (hlive hv).imp (fun _ => hend.mpr) id id⟩
    · exact .inl (.inr (.inl ⟨hf, hend.mpr hv⟩))
  · have hn₂ := hext₃.named (hgen ▸ hn)
    have hout : Outside v g.newBlock.2.newBlock.2 g₁ := (hext₂.named hn₂).outside hnew.wf h₁
    rw [Paths.reach_or, Paths.reach_guard] at hv
    refine hstart.mp (fc.back hout ?_)
    rcases hv with hv | ⟨ht, hv⟩
    · simp only [Paths.Reach, Bool.false_eq_true, false_and, or_false] at hv
      exact hv.imp_right fun hv => .inr ⟨hv.1, hend.mp hv.2⟩
    · exact .inr (.inl ⟨ht, hback hn₂ (hv.imp (fun _ => hend.mp) id id)⟩)

theorem genIfElse_flows {r ct cf : Bool} {cond : Nat → Nat → IRGen → IRGen}
    {then_ else_ : IRGen → IRGen} (hk : k ≤ k₁) (hk' : k₁ ≤ k') (hj : Jumps cond)
    (hwt : ∀ j ≤ k, Writes j then_) (hwe : ∀ j ≤ k₁, Writes j else_)
    (hcond : ∀ X, FlowsCond F X p v B r ct cf cond) (hthen : FlowsStmt F p v k k₁ B B₁ P then_)
    (helse : FlowsStmt F p v k₁ k' B₁ B' Q else_) :
    FlowsStmt F p v k k' B B' (({ reads := r } : Paths).or ((P.guard ct).or (Q.guard cf)))
      (genIfElse cond then_ else_) := by
  intro X g hg hfresh hb hX
  obtain ⟨hnew, htBB, hjBB, heBB⟩ := threeBlocks (k := 0) hg
  have hnew' := fun j => (threeBlocks (k := j) hg).1
  let b := g.blocks.length
  let g₁ := cond b (b + 2) g.newBlock.2.newBlock.2.newBlock.2
  let g₂ := then_ (g₁.startBlock b)
  let g₃ := g₂.termJmp (b + 1)
  let g₄ := else_ (g₃.startBlock (b + 2))
  have h₁ := fun j => hj j b (b + 2) _ hnew.wf
  have hto₁ := fun j => ((hnew' j).trans hg (h₁ j)).startBlock (Nat.le_refl b)
    ((h₁ j).reserved htBB)
  have h₂ := hwt 0 (Nat.zero_le _) _ (hto₁ 0).wf
  have h₃ := h₂.trans (hto₁ 0).wf (termJmp_grows h₂.wf (b + 1))
  have hj₃ := h₃.reserved (((h₁ 0).reserved hjBB).startBlock (by omega))
  have he₃ := h₃.reserved (((h₁ 0).reserved heBB).startBlock (by omega))
  have hto₃ := ((hto₁ 0).trans hg h₃).startBlock (by omega) he₃
  have h₄ := hwe 0 (Nat.zero_le _) _ hto₃.wf
  have h₅ := h₄.trans hto₃.wf (termJmp_grows h₄.wf (b + 1))
  have hj₅ := h₅.reserved (hj₃.startBlock (by omega))
  -- The vregs of the variables.
  have hext₁ : Extends k k g (g₁.startBlock b) := .of_grows hto₁
  obtain ⟨hext₂, hB₁, hflow⟩ := hthen (hto₁ 0).wf (hext₁.fresh (Nat.le_refl _) hfresh)
    (hext₁.binds hb) fun c hc => Nat.lt_of_lt_of_le (hX c hc) (hto₁ 0).length_le
  have hext₃ : Extends k₁ k₁ g₂ (g₃.startBlock (b + 2)) :=
    .of_lookup (fun id => congrArg (List.lookup id) (termJmp_irId g₂ (b + 1)))
      (Nat.le_of_eq (termJmp_nextVreg g₂ (b + 1)).symm)
  have hextT := hext₂.trans hext₃ hk (Nat.le_refl _)
  obtain ⟨hext₄, hB', hflow'⟩ := helse hto₃.wf
    (hextT.fresh hk (hext₁.fresh (Nat.le_refl _) hfresh)) (hext₃.binds hB₁)
    fun c hc => Nat.lt_of_lt_of_le (hX c hc) hto₃.length_le
  have hgen : genIfElse cond then_ else_ g = (g₄.termJmp (b + 1)).startBlock (b + 1) :=
    genIfElse_eq ..
  have hext₅ : Extends k' k' g₄ (genIfElse cond then_ else_ g) := by
    rw [hgen]
    exact .of_lookup (fun id => congrArg (List.lookup id) (termJmp_irId g₄ (b + 1)))
      (Nat.le_of_eq (termJmp_nextVreg g₄ (b + 1)).symm)
  have hextE := hext₄.trans hext₅ hk' (Nat.le_refl _)
  refine ⟨(hext₁.trans hextT (Nat.le_refl _) hk).trans hextE hk hk', hext₅.binds hB',
    fun hopen hnames hc => ?_⟩
  -- What is read.
  have hnames₄ := hext₅.names hnames
  have hnames₂ := hext₃.names (hext₄.names hnames₄)
  have hnames₁ := hext₁.names (hext₂.names hnames₂)
  rw [hgen] at hc ⊢
  have hc₄ := hc.startBlock.of_grows h₄.wf (termJmp_grows (k := 0) h₄.wf (b + 1))
  have hc₃ := (hc₄.of_grows hto₃.wf h₄).startBlock
  have hc₂ := hc₃.of_grows h₂.wf (termJmp_grows (k := 0) h₂.wf (b + 1))
  have hat : At X p v B g := ⟨hg, hopen, hnames₁, hb, hX⟩
  have fc := hcond X (hat.next hnew' hopen) (hc₂.of_grows (hto₁ 0).wf h₂).startBlock
  have hbX : ∀ i, b + i ∉ X := fun i hmem => by
    have hlt := hX _ hmem
    omega
  obtain ⟨hlive, hback⟩ := branch_flow h₂.wf ((h₁ 0).reserved htBB) (hbX 0)
    (hflow rfl hnames₂ hc₂) hc₃
  obtain ⟨hlive', hback'⟩ := branch_flow h₄.wf he₃ (hbX 2) (hflow' rfl hnames₄ hc₄) hc.startBlock
  have hend := live_startBlock (F := F) (v := v) hj₅ (hbX 1)
  have hstart : Live F X v g.newBlock.2.newBlock.2.newBlock.2 ↔ Live F X v g := by
    have hn₁ := newBlock_grows (k := 0) hg
    rw [live_newBlock (newBlock_grows (k := 0) hn₁.wf).wf, live_newBlock hn₁.wf, live_newBlock hg]
  have hloops : g₁.loops = g.loops := (h₁ 0).loops.trans hnew.loops
  have hloops₃ : g₃.loops = g.loops := h₃.loops.trans hloops
  rw [hloops] at hlive hback
  rw [hloops₃] at hlive' hback'
  refine ⟨fun _ => rfl, fun hv => ?_, fun hn hv => ?_⟩
  · rw [Paths.reach_or, Paths.reach_or, Paths.reach_guard, Paths.reach_guard]
    rcases fc.live (hstart.mpr hv) with hv | ⟨ht, hv⟩ | ⟨hf, hv⟩
    · exact .inl (.inl hv)
    · exact .inr (.inl ⟨ht, (hlive hv).imp (fun _ => hend.mpr) id id⟩)
    · exact .inr (.inr ⟨hf, (hlive' hv).imp (fun _ => hend.mpr) id id⟩)
  · have hn₄ := hext₅.named (hgen ▸ hn)
    have hn₂ := hext₃.named (hext₄.named hn₄)
    have hout : Outside v g.newBlock.2.newBlock.2.newBlock.2 g₁ :=
      (hext₂.named hn₂).outside hnew.wf h₁
    rw [Paths.reach_or, Paths.reach_or, Paths.reach_guard, Paths.reach_guard] at hv
    refine hstart.mp (fc.back hout ?_)
    rcases hv with hv | ⟨ht, hv⟩ | ⟨hf, hv⟩
    · simp only [Paths.Reach, Bool.false_eq_true, false_and, or_false] at hv
      exact .inl hv
    · exact .inr (.inl ⟨ht, hback hn₂ (hv.imp (fun _ => hend.mp) id id)⟩)
    · exact .inr (.inr ⟨hf, hback' hn₄ (hv.imp (fun _ => hend.mp) id id)⟩)

theorem genWhile_flows {r ct cf : Bool} {cond : Nat → Nat → IRGen → IRGen}
    {body : IRGen → IRGen} (hk : k ≤ k') (hj : Jumps cond) (hw : ∀ j ≤ k, Writes j body)
    (hcond : ∀ X, FlowsCond F X p v B' r ct cf cond) (hbody : FlowsStmt F p v k k' B B' P body) :
    FlowsStmt F p v k k' B B' (.loop r ct cf P) (genWhile cond body) := by
  intro X g hg hfresh hb hX
  obtain ⟨hnew, hbBB, hcBB, haBB⟩ := threeBlocks (k := 0) hg
  let b := g.blocks.length
  let g₁ := g.newBlock.2.newBlock.2.newBlock.2.termJmp (b + 1)
  let g₂ := body ((g₁.startBlock b).pushLoop ⟨b + 1, b + 2⟩)
  let gc := (g₂.termJmp (b + 1)).popLoop.startBlock (b + 1)
  let g₄ := cond b (b + 2) gc
  have h₁ := termJmp_grows (k := 0) hnew.wf (b + 1)
  have hb₁ := h₁.reserved hbBB
  have hc₁ := h₁.reserved hcBB
  have ha₁ := h₁.reserved haBB
  have hto₁ := (hnew.trans hg h₁).startBlock (Nat.le_refl b) hb₁
  have hin := hto₁.wf.pushLoop ⟨b + 1, b + 2⟩ hc₁.lt ha₁.lt
  have h₂ := hw 0 (Nat.zero_le _) _ hin
  have h₂' := termJmp_grows (k := 0) h₂.wf (b + 1)
  have h₃ := (h₂.trans hin h₂').popLoop
  have hc₃ := h₃.reserved (hc₁.startBlock (by omega))
  have ha₃ := h₃.reserved (ha₁.startBlock (by omega))
  have hto₃ := (hto₁.trans hg h₃).startBlock (Nat.le_succ b) hc₃
  have h₄ := fun j => hj j b (b + 2) _ hto₃.wf
  have ha₄ := (h₄ 0).reserved (ha₃.startBlock (by omega))
  -- The vregs of the variables.
  have hext₁ : Extends k k g ((g₁.startBlock b).pushLoop ⟨b + 1, b + 2⟩) :=
    .of_lookup (fun id => congrArg (List.lookup id) (termJmp_irId _ (b + 1)))
      (Nat.le_of_eq (termJmp_nextVreg g.newBlock.2.newBlock.2.newBlock.2 (b + 1)).symm)
  have havoid : ∀ Y : Finset Nat, (∀ y ∈ Y, y < b ∨ y = b + 1) →
      ∀ y ∈ Y, y < ((g₁.startBlock b).pushLoop ⟨b + 1, b + 2⟩).blocks.length := by
    intro Y hY y hy
    rcases hY y hy with hlt | rfl
    · exact Nat.lt_of_lt_of_le hlt hto₁.length_le
    · exact hc₁.lt
  have hstmt := fun Y hY => hbody (X := Y) hin (hext₁.fresh (Nat.le_refl _) hfresh)
    (hext₁.binds hb) (havoid Y hY)
  obtain ⟨hext₂, hB', -⟩ := hstmt X fun y hy => .inl (hX y hy)
  have hext₃ : Extends k' k' g₂ gc :=
    .of_lookup (fun id => congrArg (List.lookup id) (termJmp_irId g₂ (b + 1)))
      (Nat.le_of_eq (termJmp_nextVreg g₂ (b + 1)).symm)
  have hgen : genWhile cond body g = g₄.startBlock (b + 2) := genWhile_eq ..
  have hext₄ : Extends k' k' gc (genWhile cond body g) := by
    rw [hgen]
    exact .of_lookup (fun id => (h₄ (id + 1)).irId id (Nat.lt_succ_self _)) (h₄ 0).nextVreg_le
  have hextB := hext₃.trans hext₄ (Nat.le_refl _) (Nat.le_refl _)
  refine ⟨(hext₁.trans hext₂ (Nat.le_refl _) hk).trans hextB hk (Nat.le_refl _),
    hextB.binds hB', fun hopen hnames hc => ?_⟩
  have hnames₂ := hextB.names hnames
  have hnames₁ := hext₁.names (hext₂.names hnames₂)
  rw [hgen] at hc ⊢
  have hcc : Covers F gc := hc.startBlock.of_grows hto₃.wf (h₄ 0)
  have hc₂' : Covers F (g₂.termJmp (b + 1)) := hcc.startBlock.popLoop
  have hc₂ := hc₂'.of_grows h₂.wf h₂'
  have hc₁' : Covers F g₁ :=
    have h := hc₂.of_grows hin h₂
    ⟨h.length_le, h.insts, h.closed⟩
  -- One turn, from the condition on, along paths that avoid some blocks.
  have hturn : ∀ Y : Finset Nat, (∀ y ∈ Y, y < b ∨ y = b + 1) →
      (Live F Y v gc → r = true ∨
        ct = true ∧ P.Reach (LiveIn F Y v (b + 1)) (LiveIn F Y v (b + 2)) (LiveIn F Y v (b + 1)) ∨
          cf = true ∧ LiveIn F Y v (b + 2)) ∧
      (Named v g₄ → (r = true ∨
        ct = true ∧ P.Reach (LiveIn F Y v (b + 1)) (LiveIn F Y v (b + 2)) (LiveIn F Y v (b + 1)) ∨
          cf = true ∧ LiveIn F Y v (b + 2)) → Live F Y v gc) := by
    intro Y hY
    obtain ⟨-, -, hflow⟩ := hstmt Y hY
    have hbY : b ∉ Y := fun hmem => by
      have hlt := hY _ hmem
      omega
    have hat : At Y p v B' gc := ⟨hto₃.wf, rfl, hext₄.names hnames, hext₃.binds hB', fun y hy =>
      Nat.lt_of_lt_of_le (havoid Y hY y hy) h₃.length_le⟩
    have fc := hcond Y (t := b) (f := b + 2) hat hc.startBlock
    have hbL : (g₁.pushLoop ⟨b + 1, b + 2⟩).Reserved b := ⟨hb₁.lt, hb₁.empty, hb₁.ne_cur⟩
    obtain ⟨hlive, hback⟩ := branch_flow h₂.wf hbL hbY (hflow rfl hnames₂ hc₂) hc₂'
    refine ⟨fun hv => ?_, fun hn hv => ?_⟩
    · exact (fc.live hv).imp_right fun hv => hv.imp_left fun hv => ⟨hv.1, hlive hv.2⟩
    · have hn₂ : Named v g₂ := hextB.named (by rw [hgen]; exact hn)
      refine fc.back (hn.outside hto₃.wf h₄) ?_
      exact hv.imp_right fun hv => hv.imp_left fun hv => ⟨hv.1, hback hn₂ hv.2⟩
  have hcX : b + 1 ∉ X := fun hmem => by
    have hlt := hX _ hmem
    omega
  have haX : b + 2 ∉ X := fun hmem => by
    have hlt := hX _ hmem
    omega
  have hend := live_startBlock (F := F) (v := v) ha₄ haX
  have hgc := live_startBlock (F := F) (v := v) hc₃ hcX
  have hstart : Live F X v g ↔ Live F X v gc := by
    have hn₁ := newBlock_grows (k := 0) hg
    rw [← live_newBlock hg, ← live_newBlock hn₁.wf,
      ← live_newBlock (newBlock_grows (k := 0) hn₁.wf).wf, live_termJmp hnew.wf hopen hc₁']
    exact hgc.symm
  refine ⟨fun _ => rfl, fun hv => ?_, fun hn hv => ?_⟩
  · -- What follows the last visit of the condition.
    rw [Paths.reach_loop]
    have hlast := IRFunc.LiveOutside.iff_insert.mp (hgc.mp (hstart.mp hv)).2
    have hout := (hturn (insert (b + 1) X) fun y hy => ?_).1 ((live_reserved hc₃).mpr hlast)
    · have hmono : ∀ {y}, LiveIn F (insert (b + 1) X) v y → LiveIn F X v y :=
        LiveIn.mono (Finset.subset_insert _ _)
      have hno : LiveIn F (insert (b + 1) X) v (b + 1) → False :=
        fun h => h.1 (Finset.mem_insert_self _ _)
      rcases hout with hv | ⟨ht, hv⟩ | ⟨hf, hv⟩
      · exact .inl hv
      · exact .inr (.inl ⟨ht, hv.imp (fun _ => hno) (fun h => hend.mpr (hmono h)) hno⟩)
      · exact .inr (.inr ⟨hf, hend.mpr (hmono hv)⟩)
    · exact (Finset.mem_insert.mp hy).symm.imp_left (hX y)
  · rw [Paths.reach_loop] at hv
    refine hstart.mpr ((hturn X fun y hy => .inl (hX y hy)).2 hn ?_)
    rcases hv with hv | ⟨ht, hv⟩ | ⟨hf, hv⟩
    · exact .inl hv
    · exact .inr (.inl ⟨ht, hv.imp (fun _ => False.elim) hend.mp False.elim⟩)
    · exact .inr (.inr ⟨hf, hend.mp hv⟩)

/-- Leaving a loop. -/
theorem exitLoop_flows {target : Loop → Nat} (hpass : P.passes = false)
    (hP : ∀ (live : Nat → Prop) (behind : Prop) (l : Loop),
      P.Reach behind (live l.breakBB) (live l.continueBB) ↔ live (target l)) :
    FlowsStmt F p v k k' B B P fun g => g.termJmp (target (g.loops.headD default)) := by
  intro X g hg _ hb _
  have hext : Extends k k' g (g.termJmp (target (g.loops.headD default))) :=
    .of_grows fun j => termJmp_grows hg _
  refine ⟨hext, hext.binds hb, fun hopen _ hc => ?_⟩
  have hlive := live_termJmp (X := X) (v := v) hg hopen hc
  refine ⟨fun h => ?_, fun hv => (hP _ _ _).mpr (hlive.mp hv), fun _ hv =>
    hlive.mpr ((hP _ _ _).mp hv)⟩
  rw [hpass] at h
  cases h

/-- The end of a function, without a value. -/
theorem genReturnVoid_flows : FlowsStmt F p v k k' B B {} fun g => g.termRet false (.imm 0) := by
  intro X g hg _ hb _
  have hext : Extends k k' g (g.termRet false (.imm 0)) :=
    .of_grows fun j => termRet_grows hg _ _
  refine ⟨hext, hext.binds hb, fun hopen _ hc => ⟨fun h => (by cases h), fun hv => ?_, ?_⟩⟩
  · exact absurd ((live_termRet hg hopen hc).mp hv).1 Bool.false_ne_true
  · intro _ hv
    simp [Paths.Reach] at hv

theorem genReturn_flows (S : Sema) (value : AExpr) (hB : value.bound S B = true) :
    FlowsStmt F p v k k' B B { reads := value.uses S p } fun g =>
      (genExpr S value g).2.termRet true (genExpr S value g).1 := by
  intro X g hg _ hb hX
  have hgrows₁ := fun j => genExpr_lowers S value j g hg
  have hgrows₂ := fun j => termRet_grows (k := j) (hgrows₁ 0).wf true (genExpr S value g).1
  have hgrows := fun j => (hgrows₁ j).trans hg (hgrows₂ j)
  have hext : Extends k k' g _ := .of_grows hgrows
  refine ⟨hext, hext.binds hb, fun hopen hnames hc => ?_⟩
  have fe := genExpr_flows S value hB ⟨hg, hopen, hext.names hnames, hb, hX⟩
    (hc.of_grows (hgrows₁ 0).wf (hgrows₂ 0))
  have hlive := live_termRet (X := X) (v := v) (hgrows₁ 0).wf fe.opened hc
  simp only [true_and] at hlive
  refine ⟨fun h => (by cases h), fun hv => ?_, fun hn hv => ?_⟩
  · rcases fe.live hv with hv | ⟨hv, hnew⟩
    · exact .inl (by simp [AExpr.uses, hv])
    · have ha := hlive.mp hv
      exact .inl (by simp [AExpr.uses, fe.value.mp ⟨ha, hnew ha⟩])
  · have hout := (hn.outside hg hgrows).left (hgrows₂ 0).nextVreg_le
    simp only [Paths.Reach, AExpr.uses, Bool.or_eq_true, Bool.false_eq_true, false_and,
      or_false] at hv
    rcases hv with hv | hv
    · exact fe.back hout (.inl hv)
    · exact fe.back hout (.inr (hlive.mpr (fe.value.mpr hv).1))

end Statements

section Trees

variable {F : IRFunc} {p : SymId → Bool} {v : Nat} {A : Sema}

mutual
/-- **The code of an analysed statement reads first what the tree says.** -/
theorem genStmt_flows {S S' : Sema} {s : Stmt} {s' : AStmt} (h : analyzeStmt S s = .ok (s', S'))
    {B B' : List SymId} (hB : s'.bound A B = some B') :
    FlowsStmt F p v S.arena.length S'.arena.length B B' (s'.paths A p) (genStmt A s') := by
  match s with
  | .block _ ss =>
    simp only [analyzeStmt, bind_eq_ok, Prod.exists] at h
    obtain ⟨ss', S₁, hss, h⟩ := h
    cases h
    exact genStmts_flows hss hB
  | .empty _ =>
    cases h
    cases hB
    exact .skip
  | .exprStmt _ e =>
    simp only [analyzeStmt, bind_eq_ok] at h
    obtain ⟨e', -, h⟩ := h
    cases h
    obtain ⟨he, hB⟩ := Option.ite_none_right_eq_some.mp hB
    cases hB
    exact genExprStmt_flows A e' (Bool.or_eq_true_iff.mp he)
  | .assign line x value =>
    simp only [analyzeStmt, bind_eq_ok] at h
    obtain ⟨s₁, hs₁, h⟩ := h
    cases h
    unfold analyzeAssign at hs₁
    split at hs₁
    · cases hs₁
    · split at hs₁
      · cases hs₁
      · simp only [bind_eq_ok] at hs₁
        obtain ⟨value', -, hs₁⟩ := hs₁
        cases hs₁
        obtain ⟨hv, hB⟩ := Option.ite_none_right_eq_some.mp hB
        cases hB
        obtain ⟨hv, hsym⟩ := Bool.and_eq_true_iff.mp hv
        exact genAssign_flows A _ value' hv fun hl => by simpa [hl] using hsym
  | .varDecl line isConst x init =>
    simp only [analyzeStmt, analyzeVarDecl, bind_eq_ok] at h
    obtain ⟨init', -, h⟩ := h
    split at h
    · split at h
      · cases h
      · cases h
        cases hB
        exact .skip
    · cases h
      obtain ⟨hv, hB⟩ := Option.ite_none_right_eq_some.mp hB
      cases hB
      have hflow := genVarDecl_flows (F := F) (p := p) (v := v) A init' hv
      simp only [declare, List.length_append, List.length_singleton]
      exact hflow
  | .ifStmt _ cond then_ none =>
    simp only [analyzeStmt, bind_eq_ok, Prod.exists] at h
    obtain ⟨cond', -, then', S₁, hthen, h⟩ := h
    cases h
    have hk := (analyzeStmt_grows hthen).length_le
    show FlowsStmt F p v _ _ B B' _ fun g => genStmt A (.ifStmt cond' then' none) g
    simp only [AStmt.bound] at hB
    simp only [genStmt, AStmt.paths]
    split at hB <;> rename_i hconst
    · simp only [hconst, if_true]
      split at hB <;> rename_i hval
      · simp only [if_pos hval]
        exact genStmt_flows hthen hB
      · simp only [if_neg hval]
        cases hB
        exact .skip
    · simp only [hconst, Bool.false_eq_true, if_false]
      split at hB
      · rename_i hc
        exact genIf_flows hk (genCond_jumps A cond') (fun j hj => genStmt_writes hthen hj)
          (fun X => genCond_flows A cond' hc) (genStmt_flows hthen hB)
      · cases hB
  | .ifStmt _ cond then_ (some else_) =>
    simp only [analyzeStmt, bind_eq_ok, Prod.exists] at h
    obtain ⟨cond', -, then', S₁, hthen, else', S₂, helse, h⟩ := h
    cases h
    have hk := (analyzeStmt_grows hthen).length_le
    have hk' := (analyzeStmt_grows helse).length_le
    show FlowsStmt F p v _ _ B B' _ fun g => genStmt A (.ifStmt cond' then' (some else')) g
    simp only [AStmt.bound] at hB
    simp only [genStmt, AStmt.paths]
    split at hB <;> rename_i hconst
    · simp only [hconst, if_true]
      split at hB <;> rename_i hval
      · simp only [if_pos hval]
        exact (genStmt_flows hthen hB).widen (Nat.le_refl _) hk'
      · simp only [if_neg hval]
        exact (genStmt_flows helse hB).widen hk (Nat.le_refl _)
    · simp only [hconst, Bool.false_eq_true, if_false]
      split at hB
      · rename_i hc
        obtain ⟨B₁, hB₁, hB⟩ := Option.bind_eq_some_iff.mp hB
        exact genIfElse_flows hk hk' (genCond_jumps A cond') (fun j hj => genStmt_writes hthen hj)
          (fun j hj => genStmt_writes helse hj) (fun X => genCond_flows A cond' hc)
          (genStmt_flows hthen hB₁) (genStmt_flows helse hB)
      · cases hB
  | .whileStmt _ cond body =>
    simp only [analyzeStmt, bind_eq_ok, Prod.exists] at h
    obtain ⟨cond', -, body', S₁, hbody, h⟩ := h
    cases h
    obtain ⟨B₁, hB₁, hB⟩ := Option.bind_eq_some_iff.mp hB
    obtain ⟨hc, hB⟩ := Option.ite_none_right_eq_some.mp hB
    cases hB
    exact genWhile_flows (analyzeStmt_grows hbody).length_le (genCond_jumps A cond')
      (fun j hj => genStmt_writes hbody hj) (fun X => genCond_flows A cond' hc)
      (genStmt_flows hbody hB₁)
  | .breakStmt line =>
    simp only [analyzeStmt] at h
    split at h
    · cases h
    · cases h
      cases hB
      exact exitLoop_flows rfl fun live behind l => by simp [AStmt.paths, Paths.Reach]
  | .continueStmt line =>
    simp only [analyzeStmt] at h
    split at h
    · cases h
    · cases h
      cases hB
      exact exitLoop_flows rfl fun live behind l => by simp [AStmt.paths, Paths.Reach]
  | .returnStmt _ none =>
    cases h
    cases hB
    exact genReturnVoid_flows
  | .returnStmt _ (some value) =>
    simp only [analyzeStmt, bind_eq_ok] at h
    obtain ⟨value', -, h⟩ := h
    cases h
    obtain ⟨hv, hB⟩ := Option.ite_none_right_eq_some.mp hB
    cases hB
    exact genReturn_flows A value' hv
/-- The same for the statements of a block. -/
theorem genStmts_flows {S S' : Sema} {ss : List Stmt} {ss' : List AStmt}
    (h : analyzeStmts S ss = .ok (ss', S')) {B B' : List SymId}
    (hB : AStmt.boundAll A B ss' = some B') :
    FlowsStmt F p v S.arena.length S'.arena.length B B' (AStmt.pathsAll A p ss')
      (genStmts A ss') := by
  match ss with
  | [] =>
    cases h
    cases hB
    exact .skip
  | s :: ss =>
    simp only [analyzeStmts, bind_eq_ok, Prod.exists] at h
    obtain ⟨s', S₁, hs, ss', S₂, hss, h⟩ := h
    cases h
    obtain ⟨B₁, hB₁, hB⟩ := Option.bind_eq_some_iff.mp hB
    exact (genStmt_flows hs hB₁).seq (genStmts_flows hss hB) (fun j hj => genStmt_writes hs hj)
      (fun j hj => genStmts_writes hss hj) (analyzeStmt_grows hs).length_le
      (analyzeStmts_grows hss).length_le
end

end Trees

end IRGen

end ToyC
