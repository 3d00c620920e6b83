import ToyC.IRGenNames

/-!
# The lowering of statements is correct

Executing the code of a statement ends where control leaves the statement in the
source: behind the code, at the block of the enclosing loop that `break` or
`continue` names, or with the end of the function. `Leaves` says which, and what
the registers hold then; `Executes` says it of a way of lowering a statement, and the
lemmas below follow the ways `genStmt` has. A loop is unfolded by its fuel, one turn
of the source against one turn through the block of the condition.

A declaration that is itself the branch of a conditional or the body of a loop would
be visible behind it, though it was never executed; the grammar of C has no such
statement, and neither do the programs considered here (`Stmt.declsInBlocks`).
-/

namespace ToyC

/-! ## Where declarations stand -/

/-- Whether a statement is a declaration. -/
def Stmt.isDecl : Stmt → Bool
  | .varDecl _ _ _ _ => true
  | _ => false

mutual
/-- **Declarations stand only among the items of a block**, inside the statement. -/
def Stmt.declsInBlocks : Stmt → Bool
  | .block _ ss => Stmts.declsInBlocks ss
  | .ifStmt _ _ then_ none => !then_.isDecl && then_.declsInBlocks
  | .ifStmt _ _ then_ (some else_) =>
    (!then_.isDecl && then_.declsInBlocks) && (!else_.isDecl && else_.declsInBlocks)
  | .whileStmt _ _ body => !body.isDecl && body.declsInBlocks
  | _ => true
/-- The same for the items of a block. -/
def Stmts.declsInBlocks : List Stmt → Bool
  | [] => true
  | s :: ss => s.declsInBlocks && Stmts.declsInBlocks ss
end

/-- Such a statement declares nothing, unless it is a declaration. -/
theorem Stmt.binds_eq_nil : ∀ s : Stmt, s.isDecl = false → s.declsInBlocks = true →
    s.binds = []
  | .varDecl _ _ _ _, hd, _ => by cases hd
  | .ifStmt _ _ then_ none, _, h => by
    simp only [declsInBlocks, Bool.and_eq_true, Bool.not_eq_true'] at h
    exact then_.binds_eq_nil h.1 h.2
  | .ifStmt _ _ then_ (some else_), _, h => by
    simp only [declsInBlocks, Bool.and_eq_true, Bool.not_eq_true'] at h
    show else_.binds ++ then_.binds = []
    rw [then_.binds_eq_nil h.1.1 h.1.2, else_.binds_eq_nil h.2.1 h.2.2]
    rfl
  | .whileStmt _ _ body, _, h => by
    simp only [declsInBlocks, Bool.and_eq_true, Bool.not_eq_true'] at h
    exact body.binds_eq_nil h.1 h.2
  | .block _ _, _, _ | .empty _, _, _ | .exprStmt _ _, _, _ | .assign _ _ _, _, _
  | .breakStmt _, _, _ | .continueStmt _, _, _ | .returnStmt _ _, _, _ => rfl

namespace IRGen

open Sema Machine

/-! ## Specifications -/

/-- **Where the code of a statement is left.** The generator was `g` before the
statement and is `g'` behind it; `jump` says what is known of the scopes when control
leaves by `break` or `continue`. -/
def Leaves (F : IRFunc) (call : Callee) (A : Sema) (g g' : IRGen) (scopes' : List Scope)
    (jump : Regs → Env → Prop) (x : Flow × Globals) (c : Config) : Prop :=
  match x.1 with
  | .normal env =>
    ∃ R, c = g'.here F R x.2 ∧ g'.isSealed = false ∧ EnvRel A g' R scopes' env
  | .brk env => ∃ l ls R, g.loops = l :: ls ∧ c = F.start l.breakBB R x.2 ∧ jump R env
  | .cont env => ∃ l ls R, g.loops = l :: ls ∧ c = F.start l.continueBB R x.2 ∧ jump R env
  | .ret v => Ends (F.step call) c (v, x.2)

/-- **The generator and the execution before a statement.** -/
structure Ready (voids : Voids) (A S : Sema) (g : IRGen) (R : Regs) (env : Env) : Prop where
  static : Static voids A S
  wf : g.WF
  opened : g.isSealed = false
  depth : S.loopDepth = g.loops.length
  env : EnvRel A g R S.scopes env

/-- A statement may write the registers that were free. -/
theorem Ready.regs {voids : Voids} {A S : Sema} {g : IRGen} {R R' : Regs} {env : Env}
    (h : Ready voids A S g R env) (hR : Agree g.nextVreg R R') : Ready voids A S g R' env :=
  ⟨h.static, h.wf, h.opened, h.depth, h.env.mono h.wf (fun _ _ _ _ => rfl) hR⟩

/-- Ready for code in a reserved block, once more code is written. -/
theorem Ready.startBlock {voids : Voids} {A S : Sema} {g g' : IRGen} {R R' : Regs}
    {env env' : Env} {b : Nat} (h : Ready voids A S g R env)
    (hto : Grows S.arena.length g (g'.startBlock b))
    (henv : EnvRel A g R' S.scopes env') : Ready voids A S (g'.startBlock b) R' env' where
  static := h.static
  wf := hto.wf
  opened := rfl
  depth := h.depth.trans (by rw [hto.loops])
  env := henv.mono h.wf
    (fun scope hs p hp => hto.irId p.2 (h.static.inOrder.lt scope hs p hp)) (.refl _ _)

/-- Ready for the body of a loop. -/
theorem Ready.pushLoop {voids : Voids} {A S : Sema} {g : IRGen} {R : Regs} {env : Env}
    {loop : Loop} (h : Ready voids A S g R env) (hwf : (g.pushLoop loop).WF) :
    Ready voids A { S with loopDepth := S.loopDepth + 1 } (g.pushLoop loop) R env where
  static := ⟨⟨⟨h.static.inOrder.lt, h.static.inOrder.nodup⟩, h.static.arena⟩, h.static.funcs⟩
  wf := hwf
  opened := h.opened
  depth := congrArg (· + 1) h.depth
  env := h.env.mono h.wf (fun _ _ _ _ => rfl) (.refl _ _)

/-- **The code of a statement executes it**, from the tables `S` before it to the tables
`S'` behind it. -/
def Executes (voids : Voids) (F : IRFunc) (call : Callee) (A S S' : Sema) (gen : IRGen → IRGen)
    (exec : Nat → Env → Globals → Outcome (Flow × Globals)) : Prop :=
  ∀ (n : Nat) (g : IRGen) (R : Regs) (env : Env) (G : Globals), Ready voids A S g R env →
    Covers F (gen g) → Reaches (F.step call) n (g.here F R G) (exec n env G)
      (Leaves F call A g (gen g) S'.scopes fun R env => EnvRel A g R S.scopes env)

/-- The symbols in scope keep their vregs, whatever happens behind them. -/
theorem EnvRel.of_irId {A S : Sema} {g g' : IRGen} {R R' : Regs} {env : Env}
    (h : EnvRel A g R S.scopes env) (hS : S.InOrder) (hg : g.WF)
    (hid : ∀ id < S.arena.length, g'.irId.lookup id = g.irId.lookup id)
    (hR : Agree g.nextVreg R R') : EnvRel A g' R' S.scopes env :=
  h.mono hg (fun scope hs p hp => hid p.2 (hS.lt scope hs p hp)) hR

section Statements

variable {voids : Voids} {F : IRFunc} {call : Callee} {A S S' : Sema}

/-- A statement inside another one: control that leaves it by a jump leaves both, and
otherwise goes on behind it. -/
theorem Leaves.enclose {n : Nat} {g g' gi gi' : IRGen} {scopes' scopesi' : List Scope}
    {jump jumpi : Regs → Env → Prop} {x : Flow × Globals} {c : Config}
    (h : Leaves F call A gi gi' scopesi' jumpi x c) (hloops : gi.loops = g.loops)
    (hjump : ∀ R env, jumpi R env → jump R env)
    (hnormal : ∀ R env G, x = (.normal env, G) → gi'.isSealed = false →
      EnvRel A gi' R scopesi' env →
        Reaches (F.step call) n (gi'.here F R G) (.ok (Flow.normal env, G))
          (Leaves F call A g g' scopes' jump)) :
    Reaches (F.step call) n c (.ok x) (Leaves F call A g g' scopes' jump) := by
  obtain ⟨flow, G⟩ := x
  cases flow with
  | normal env =>
    obtain ⟨R, rfl, hopen, henv⟩ := h
    exact hnormal R env G rfl hopen henv
  | brk env =>
    obtain ⟨l, ls, R, hl, rfl, hj⟩ := h
    exact .of_post ⟨l, ls, R, hloops ▸ hl, rfl, hjump R env hj⟩
  | cont env =>
    obtain ⟨l, ls, R, hl, rfl, hj⟩ := h
    exact .of_post ⟨l, ls, R, hloops ▸ hl, rfl, hjump R env hj⟩
  | ret v => exact .of_post h

/-! ## Declarations and assignments -/

/-- The symbol a declaration added, in the final tables. -/
theorem symbol_declare {sym : Symbol} (hA : (S.declare sym).2.arena <+: A.arena) :
    A.symbol S.arena.length = sym := by
  obtain ⟨rest, hrest⟩ := hA
  rw [Sema.symbol, ← hrest]
  simp [Sema.declare]

theorem declare_scopes (S : Sema) (sym : Symbol) :
    (S.declare sym).2.scopes = extendTop [(sym.name, S.arena.length)] S.scopes := by
  unfold Sema.declare extendTop
  cases S.scopes <;> rfl

/-- The instruction that sets a register. -/
abbrev mv (r : Nat) (v : Val) : Inst := { op := .Mv, dst := some r, a := v }

theorem steps_mv {g : IRGen} (hg : g.WF) (hopen : g.isSealed = false) {r : Nat} {v : Val}
    (hc : Covers F (g.emit (mv r v))) (R : Regs) (G : Globals) :
    Steps (F.step call) (g.here F R G) ((g.emit (mv r v)).here F (R.set r (v.eval R)) G) :=
  .single (step_emit _ hg hopen hc R G)

/-- **A declaration**: the initialiser is evaluated before the name is in scope. -/
theorem genVarDecl_executes {init : Expr} {init' : AExpr} {sym : Symbol}
    (hinit : analyzeExpr S init = .ok init') (hc : sym.isConst = false)
    (hk : sym.kind ≠ .GlobalVar) (hA : (S.declare sym).2.arena <+: A.arena) :
    Executes voids F call A S (S.declare sym).2 (genVarDecl A init' S.arena.length)
      fun _ env G => evalExpr voids call env init G >>= fun a =>
        .ok (.normal (env.declare sym.name (.var a.1)), a.2) := by
  intro n g R env G h hcov
  have hbind := bindVreg_grows (k := S.arena.length) h.wf (Nat.le_refl _)
  generalize hg₀ : ({ g.newVreg.2 with irId := (S.arena.length, g.nextVreg) :: g.irId } :
    IRGen) = g₀ at hbind
  have hgen : genVarDecl A init' S.arena.length g =
      (genExpr A init' g₀).2.emit (mv g.nextVreg (genExpr A init' g₀).1) := by
    rw [← hg₀]
    rfl
  have hvreg : g₀.irId.lookup S.arena.length = some g.nextVreg := by
    rw [← hg₀]
    simp
  have hnext : g₀.nextVreg = g.nextVreg + 1 := by
    rw [← hg₀]
    rfl
  have hhere : g₀.here F R G = g.here F R G := by
    rw [← hg₀]
    rfl
  have hopen₀ : g₀.isSealed = false := by
    rw [← hg₀]
    exact h.opened
  rw [hgen] at hcov ⊢
  have henv₀ := h.env.of_irId h.static.inOrder h.wf hbind.irId (.refl _ _)
  have h₁ := fun k => genExpr_lowers A init' k g₀ hbind.wf
  have h₂ := fun k => (h₁ k).trans hbind.wf
    (emit_grows (h₁ k).wf (mv g.nextVreg (genExpr A init' g₀).1))
  rw [← hhere]
  refine ((genExpr_lowered h.static hinit).value hbind.wf hopen₀ henv₀
    (hcov.of_grows (h₁ 0).wf (emit_grows (k := 0) (h₁ 0).wf _))).bind ?_
  rintro a _ - ⟨R₁, rfl, hopen₁, hR₁, -, hval⟩
  refine .head (steps_mv (h₁ 0).wf hopen₁ hcov R₁ a.2) (.of_post ⟨_, rfl, emit_isSealed _ _, ?_⟩)
  -- The vreg of the new symbol is none of those in scope.
  have hR : Agree g.nextVreg R R₁ := fun r hr => hR₁ r (by rw [hnext]; exact Nat.lt_succ_of_lt hr)
  have henv₂ := h.env.of_irId h.static.inOrder h.wf
    (fun id hid => ((h₂ (id + 1)).irId id (Nat.lt_succ_self _)).trans (hbind.irId id hid))
    (hR.trans (.set R₁ ((genExpr A init' g₀).1.eval R₁) (Nat.le_refl _)) (Nat.le_refl _))
  rw [declare_scopes]
  refine henv₂.declare sym.name ⟨by rw [symbol_declare hA, hc], by rwa [symbol_declare hA],
    g.nextVreg, ?_, ?_⟩
  · rw [(h₂ (S.arena.length + 1)).irId _ (Nat.lt_succ_self _), hvreg]
  · rw [Regs.set_same, hval]

/-- The declaration of a constant needs no code. -/
theorem constDecl_executes {init : Expr} {init' : AExpr} {sym : Symbol}
    (hinit : analyzeExpr S init = .ok init') (hconst : init'.isConst = true)
    (hc : sym.isConst = true) (hv : sym.constValue = init'.constValue)
    (hA : (S.declare sym).2.arena <+: A.arena) :
    Executes voids F call A S (S.declare sym).2 id
      fun _ env G => evalExpr voids call env init G >>= fun a =>
        .ok (.normal (env.declare sym.name (.const a.1)), a.2) := by
  intro n g R env G h hcov
  simp only [analyzeExpr_const h.static.toPlaced h.env G init hinit hconst, Outcome.ok_bind]
  refine .of_post ⟨R, rfl, h.opened, ?_⟩
  rw [declare_scopes]
  exact h.env.declare sym.name ⟨by rw [symbol_declare hA, hc], by rw [symbol_declare hA, hv]⟩

/-- **An assignment.** -/
theorem genAssign_executes {x : String} {id : SymId} {value : Expr} {value' : AExpr}
    (hx : S.lookup x = some id) (hc : (S.symbol id).isConst = false)
    (hvalue : analyzeExpr S value = .ok value') :
    Executes voids F call A S S (genAssign A id value') fun _ env G =>
      evalExpr voids call env value G >>= fun a => assignName env x a.1 a.2 := by
  intro n g R env G h hcov
  have h₁ := fun k => genExpr_lowers A value' k g h.wf
  rw [h.static.symbol hx] at hc
  have hcov₁ : Covers F (genExpr A value' g).2 := by
    by_cases hk : (A.symbol id).kind = .GlobalVar
    · simp only [genAssign, hk, if_true] at hcov
      exact hcov.of_grows (h₁ 0).wf (emit_grows (k := 0) (h₁ 0).wf _)
    · simp only [genAssign, hk, if_false] at hcov
      exact hcov.of_grows (h₁ 0).wf (emit_grows (k := 0) (h₁ 0).wf _)
  refine ((genExpr_lowered h.static hvalue).value h.wf h.opened h.env hcov₁).bind ?_
  rintro a _ - ⟨R₁, rfl, hopen₁, hR₁, -, hval⟩
  have henv₁ := h.env.after h.wf h₁ hR₁
  rcases henv₁.lookup x with ⟨hnone, -⟩ | ⟨id', b, hx', hb, hbind⟩
  · rw [show S.lookup x = none from hnone] at hx
    cases hx
  · rw [show S.lookup x = some id' from hx'] at hx
    cases hx
    simp only [assignName, hb]
    cases b with
    | const v =>
      rw [hbind.1] at hc
      cases hc
    | var v =>
      obtain ⟨-, hk, r, hr, -⟩ := hbind
      have hgen : genAssign A id value' g =
          (genExpr A value' g).2.emit (mv r (genExpr A value' g).1) := by
        show (if (A.symbol id).kind = .GlobalVar then _ else _) = _
        rw [if_neg hk, vregOf, hr]
        rfl
      rw [hgen] at hcov ⊢
      refine .head (steps_mv (h₁ 0).wf hopen₁ hcov R₁ a.2)
        (.of_post ⟨_, rfl, emit_isSealed _ _, ?_⟩)
      rw [hval]
      exact (henv₁.assign (h₁ 0).wf hx' hr hc hk h.static.inOrder.nodup).after (h₁ 0).wf
        (fun k => emit_grows (h₁ 0).wf _) (.refl _ _)
    | global gid =>
      obtain ⟨-, hk, hid⟩ := hbind
      have hgen : genAssign A id value' g = (genExpr A value' g).2.emit
          { op := .StoreGlobal, gid, a := (genExpr A value' g).1 } := by
        show (if (A.symbol id).kind = .GlobalVar then _ else _) = _
        rw [if_pos hk, hid]
        rfl
      rw [hgen] at hcov ⊢
      have hstep := step_emit call (h₁ 0).wf hopen₁ hcov R₁ a.2
      refine .head (.single hstep) (.of_post ⟨R₁, ?_, emit_isSealed _ _, ?_⟩)
      · rw [hval]
      · exact henv₁.after (h₁ 0).wf (fun k => emit_grows (h₁ 0).wf _) (.refl _ _)

/-! ## Conditionals -/

/-- **The code of a condition jumps where the condition says**, wherever its names are in
scope. -/
def Branches (voids : Voids) (F : IRFunc) (call : Callee) (A S : Sema)
    (cond : Nat → Nat → IRGen → IRGen) (e : Expr) : Prop :=
  ∀ {n : Nat} {g : IRGen} {R : Regs} {env : Env} {G : Globals} {t f : Nat}, g.WF →
    g.isSealed = false → EnvRel A g R S.scopes env →
    t < F.blocks.length → f < F.blocks.length →
      JumpsTo F call n cond t f g R G (evalExpr voids call env e G)

/-- The scopes are the same seen from any later point of the lowering, and from any
earlier one. -/
theorem EnvRel.later {g g' : IRGen} {R : Regs} {env : Env} (h : EnvRel A g R S.scopes env)
    (hS : S.InOrder) (hg : g.WF) (hgrows : Grows S.arena.length g g') :
    EnvRel A g' R S.scopes env :=
  h.of_irId hS hg hgrows.irId (.refl _ _)

theorem EnvRel.earlier {g g' : IRGen} {R : Regs} {env : Env} (h : EnvRel A g' R S.scopes env)
    (hS : S.InOrder) (hgrows : Grows S.arena.length g g') : EnvRel A g R S.scopes env :=
  h.of_irId hS hgrows.wf (fun id hid => (hgrows.irId id hid).symm) (.refl _ _)

/-- **An arm of a conditional**: a statement in a reserved block that ends with a jump to
the block behind the conditional. -/
theorem reaches_arm {n : Nat} {g gi g' : IRGen} {R : Regs} {env : Env} {G : Globals}
    {b j : Nat} {S₁ S₂ : Sema} {arm : IRGen → IRGen}
    {exec : Nat → Env → Globals → Outcome (Flow × Globals)} (h : Ready voids A S g R env)
    (hst : Static voids A S₁) (hdepth : S₁.loopDepth = S.loopDepth)
    (hscopes₁ : S₁.scopes = S.scopes) (hscopes₂ : S₂.scopes = S.scopes)
    (hw : Writes S.arena.length arm) (harm : Executes voids F call A S₁ S₂ arm exec)
    (hgi : Grows S.arena.length g gi) (hb : gi.Reserved b) (hle : g.blocks.length ≤ b)
    (hcov : Covers F ((arm (gi.startBlock b)).termJmp j)) (hj : j < F.blocks.length)
    (hend : Grows S.arena.length g g') (hjoin : ∀ R G, g'.here F R G = F.start j R G)
    (hopen : g'.isSealed = false) :
    Reaches (F.step call) n (F.start b R G) (exec n env G)
      (Leaves F call A g g' S.scopes fun R env => EnvRel A g R S.scopes env) := by
  have hS := h.static.inOrder
  have hto := hgi.startBlock hle hb
  have h₁ := hw _ hto.wf
  have hready : Ready voids A S₁ (gi.startBlock b) R env := by
    refine ⟨hst, hto.wf, rfl, ?_, ?_⟩
    · rw [hdepth, h.depth, hto.loops]
    · rw [hscopes₁]
      exact h.env.later hS h.wf hto
  rw [← here_startBlock hb]
  refine (harm n _ R env G hready (hcov.of_grows h₁.wf
    (termJmp_grows (k := 0) h₁.wf j))).then_ fun x c _ hx => ?_
  refine hx.enclose hto.loops (fun R env henv => ?_) fun R env G _ hopen₁ henv => ?_
  · rw [hscopes₁] at henv
    exact henv.earlier hS hto
  · rw [hscopes₂] at henv
    refine .head (.single (step_termJmp _ h₁.wf hopen₁ hcov hj R G))
      (.of_post ⟨R, (hjoin R G).symm, hopen, ?_⟩)
    exact (henv.earlier hS (hto.trans h.wf h₁)).later hS h.wf hend

/-- **A conditional without `else`.** -/
theorem genIf_executes {cond : Nat → Nat → IRGen → IRGen} {e : Expr} (hj : Jumps cond)
    (hcond : Branches voids F call A S cond e) {then_ : IRGen → IRGen}
    {exec : Nat → Env → Globals → Outcome (Flow × Globals)} (hw : Writes S.arena.length then_)
    (hthen : Executes voids F call A S S' then_ exec) (hscopes : S'.scopes = S.scopes) :
    Executes voids F call A S S' (genIf cond then_) fun n env G =>
      evalExpr voids call env e G >>= fun a =>
        if Word.truthy a.1 then exec n env a.2 else .ok (.normal env, a.2) := by
  intro n g R env G h hcov
  have hS := h.static.inOrder
  obtain ⟨hnew, htBB, hjBB⟩ := twoBlocks (k := S.arena.length) h.wf
  have h₁ := hj S.arena.length g.blocks.length (g.blocks.length + 1) _ hnew.wf
  have hto₁ := (hnew.trans h.wf h₁).startBlock (Nat.le_refl _) (h₁.reserved htBB)
  have h₂ := hw _ hto₁.wf
  have h₃ := h₂.trans hto₁.wf (termJmp_grows h₂.wf (g.blocks.length + 1))
  have hj₃ := h₃.reserved ((h₁.reserved hjBB).startBlock (by simp))
  have hend := (hto₁.trans h.wf h₃).startBlock (Nat.le_succ _) hj₃
  rw [genIf_eq] at hcov ⊢
  have hcov₃ := Covers.startBlock hcov
  have hcov₁ := (hcov₃.of_grows hto₁.wf h₃).startBlock
  have hjlt := Nat.lt_of_lt_of_le hj₃.lt hcov₃.length_le
  have htlt := Nat.lt_trans (Nat.lt_succ_self _) hjlt
  have hjoin := fun R G => here_startBlock hj₃ F R G
  rw [hscopes, ← here_newBlock h.wf, ← here_newBlock (newBlock_grows (k := 0) h.wf).wf]
  refine (hcond hnew.wf h.opened (h.env.later hS h.wf hnew) htlt hjlt hcov₁).bind ?_
  rintro a _ - ⟨R₁, rfl, hR₁⟩
  have h' := h.regs hR₁
  cases Word.truthy a.1 with
  | false => exact .of_post ⟨R₁, (hjoin R₁ a.2).symm, rfl, h'.env.later hS h.wf hend⟩
  | true =>
    exact reaches_arm h' h.static rfl rfl hscopes hw hthen (hnew.trans h.wf h₁)
      (h₁.reserved htBB) (Nat.le_refl _) hcov₃ hjlt hend hjoin rfl

/-- **A conditional with `else`.** -/
theorem genIfElse_executes {cond : Nat → Nat → IRGen → IRGen} {e : Expr} (hj : Jumps cond)
    (hcond : Branches voids F call A S cond e) {S₁ : Sema} {then_ else_ : IRGen → IRGen}
    {exec₁ exec₂ : Nat → Env → Globals → Outcome (Flow × Globals)}
    (hw₁ : Writes S.arena.length then_) (hw₂ : Writes S.arena.length else_)
    (hthen : Executes voids F call A S S₁ then_ exec₁)
    (helse : Executes voids F call A S₁ S' else_ exec₂) (hst : Static voids A S₁)
    (hdepth : S₁.loopDepth = S.loopDepth) (hscopes₁ : S₁.scopes = S.scopes)
    (hscopes : S'.scopes = S.scopes) :
    Executes voids F call A S S' (genIfElse cond then_ else_) fun n env G =>
      evalExpr voids call env e G >>= fun a =>
        if Word.truthy a.1 then exec₁ n env a.2 else exec₂ n env a.2 := by
  intro n g R env G h hcov
  have hS := h.static.inOrder
  obtain ⟨hnew, htBB, hjBB, heBB⟩ := threeBlocks (k := S.arena.length) h.wf
  have h₁ := hj S.arena.length g.blocks.length (g.blocks.length + 2) _ hnew.wf
  have hto₁ := (hnew.trans h.wf h₁).startBlock (Nat.le_refl _) (h₁.reserved htBB)
  have h₂ := hw₁ _ hto₁.wf
  have h₃ := h₂.trans hto₁.wf (termJmp_grows h₂.wf (g.blocks.length + 1))
  have hj₃ := h₃.reserved ((h₁.reserved hjBB).startBlock (by simp))
  have he₃ := h₃.reserved ((h₁.reserved heBB).startBlock (by simp))
  have hto₃ := (hto₁.trans h.wf h₃).startBlock (by simp) he₃
  have h₄ := hw₂ _ hto₃.wf
  have h₅ := h₄.trans hto₃.wf (termJmp_grows h₄.wf (g.blocks.length + 1))
  have hj₅ := h₅.reserved (hj₃.startBlock (by simp))
  have hend := (hto₃.trans h.wf h₅).startBlock (Nat.le_succ _) hj₅
  rw [genIfElse_eq] at hcov ⊢
  have hcov₅ := Covers.startBlock hcov
  have hcov₃ := (hcov₅.of_grows hto₃.wf h₅).startBlock
  have hcov₁ := (hcov₃.of_grows hto₁.wf h₃).startBlock
  have helt := Nat.lt_of_lt_of_le he₃.lt hcov₃.length_le
  have hjlt := Nat.lt_trans (Nat.lt_succ_self _) helt
  have htlt := Nat.lt_trans (Nat.lt_succ_self _) hjlt
  have hjoin := fun R G => here_startBlock hj₅ F R G
  rw [hscopes, ← here_newBlock h.wf, ← here_newBlock (newBlock_grows (k := 0) h.wf).wf,
    ← here_newBlock (twoBlocks (k := 0) h.wf).1.wf]
  refine (hcond hnew.wf h.opened (h.env.later hS h.wf hnew) htlt helt hcov₁).bind ?_
  rintro a _ - ⟨R₁, rfl, hR₁⟩
  have h' := h.regs hR₁
  cases Word.truthy a.1 with
  | true =>
    exact reaches_arm h' h.static rfl rfl hscopes₁ hw₁ hthen (hnew.trans h.wf h₁)
      (h₁.reserved htBB) (Nat.le_refl _) hcov₃ hjlt hend hjoin rfl
  | false =>
    exact reaches_arm h' hst hdepth hscopes₁ hscopes hw₂ helse (hto₁.trans h.wf h₃) he₃
      (by simp) hcov₅ hjlt hend hjoin rfl

/-! ## Loops -/

/-- How a loop is left, for the block `d` behind it. -/
def LoopEnds (F : IRFunc) (call : Callee) (A S : Sema) (g : IRGen) (d : Nat)
    (x : Flow × Globals) (c : Config) : Prop :=
  match x.1 with
  | .normal env => ∃ R, c = F.start d R x.2 ∧ EnvRel A g R S.scopes env
  | .ret v => Ends (F.step call) c (v, x.2)
  | .brk _ | .cont _ => False

/-- **The turns of a loop**, from the block `c` of the condition through the block `b` of
the body. -/
theorem reaches_turns {g : IRGen} {b c d : Nat} (hbc : b ≠ c)
    (cond : Env → Globals → Outcome (Word × Globals))
    (exec : Nat → Env → Globals → Outcome (Flow × Globals))
    (hcond : ∀ n R env G, EnvRel A g R S.scopes env →
      Reaches (F.step call) n (F.start c R G) (cond env G) fun a s => ∃ R',
        s = F.start (if Word.truthy a.1 then b else d) R' a.2 ∧ EnvRel A g R' S.scopes env)
    (hbody : ∀ n R env G, EnvRel A g R S.scopes env →
      Reaches (F.step call) n (F.start b R G) (exec n env G) fun x s =>
        match x.1.afterBody x.2 with
        | .inl t => ∃ R', s = F.start c R' t.2 ∧ EnvRel A g R' S.scopes t.1
        | .inr y => LoopEnds F call A S g d y s)
    (n : Nat) (R : Regs) (env : Env) (G : Globals) (henv : EnvRel A g R S.scopes env) :
    Reaches (F.step call) n (F.start c R G)
      (Outcome.loop (fun n s => cond s.1 s.2 >>= fun a =>
        if Word.truthy a.1 then exec n s.1 a.2 >>= fun b => .ok (b.1.afterBody b.2)
        else .ok (.inr (.normal s.1, a.2))) n (env, G))
      (LoopEnds F call A S g d) := by
  induction n generalizing R env G with
  | zero => rfl
  | succ n ih =>
    have hc := hcond (n + 1) R env G henv
    rw [Outcome.loop_succ, Outcome.bind_assoc]
    show Reaches (F.step call) (n + 1) (F.start c R G) (cond env G >>= _) _
    cases hx : cond env G with
    | timeout =>
      rw [hx] at hc
      exact hc
    | stuck =>
      rw [hx] at hc
      exact hc
    | ok a =>
      rw [hx] at hc
      obtain ⟨_, hsteps, R₁, rfl, henv₁⟩ := hc
      cases hv : Word.truthy a.1 with
      | false =>
        rw [hv] at hsteps
        simp only [Outcome.ok_bind, hv, Bool.false_eq_true, if_false, Sum.elim_inr]
        exact .head hsteps (.of_post ⟨R₁, rfl, henv₁⟩)
      | true =>
        rw [hv] at hsteps
        have hne : F.start c R G ≠ F.start b R₁ a.2 := fun heq =>
          hbc (congrArg Config.block heq).symm
        refine .head_succ hsteps hne ?_
        simp only [Outcome.ok_bind, hv, if_true, Outcome.bind_assoc]
        refine (hbody n R₁ env a.2 henv₁).bind fun x s _ hx => ?_
        cases hy : x.1.afterBody x.2 with
        | inl t =>
          rw [hy] at hx
          obtain ⟨R₂, rfl, henv₂⟩ := hx
          exact ih R₂ t.1 t.2 henv₂
        | inr y =>
          rw [hy] at hx
          exact .of_post hx

/-- **A loop.** The turns of the source and those through the block of the condition go
together, one unit of fuel for each. -/
theorem genWhile_executes {cond : Nat → Nat → IRGen → IRGen} {e : Expr} (hj : Jumps cond)
    (hcond : Branches voids F call A S cond e) {S₁ : Sema} {body : IRGen → IRGen}
    {exec : Nat → Env → Globals → Outcome (Flow × Globals)} (hw : Writes S.arena.length body)
    (hbody : Executes voids F call A { S with loopDepth := S.loopDepth + 1 } S₁ body exec)
    (hscopes₁ : S₁.scopes = S.scopes) (hscopes : S'.scopes = S.scopes) :
    Executes voids F call A S S' (genWhile cond body) fun n env G =>
      Outcome.loop (fun n s => evalExpr voids call s.1 e s.2 >>= fun a =>
        if Word.truthy a.1 then
          exec n s.1 a.2 >>= fun b => .ok (b.1.afterBody b.2)
        else .ok (.inr (.normal s.1, a.2))) n (env, G) := by
  intro n g R env G h hcov
  have hS := h.static.inOrder
  obtain ⟨hnew, hbBB, hcBB, haBB⟩ := threeBlocks (k := S.arena.length) h.wf
  have h₁ := termJmp_grows (k := S.arena.length) hnew.wf (g.blocks.length + 1)
  have hb₁ := h₁.reserved hbBB
  have hc₁ := h₁.reserved hcBB
  have ha₁ := h₁.reserved haBB
  have hto₁ := (hnew.trans h.wf h₁).startBlock (Nat.le_refl _) hb₁
  have hin := hto₁.wf.pushLoop ⟨g.blocks.length + 1, g.blocks.length + 2⟩ hc₁.lt ha₁.lt
  have h₂ := hw _ hin
  have h₂' := h₂.trans hin (termJmp_grows h₂.wf (g.blocks.length + 1))
  have h₃ := h₂'.popLoop
  have hc₃ := h₃.reserved (hc₁.startBlock (by simp))
  have ha₃ := h₃.reserved (ha₁.startBlock (by simp))
  have hto₃ := (hto₁.trans h.wf h₃).startBlock (Nat.le_succ _) hc₃
  have h₄ := hj S.arena.length g.blocks.length (g.blocks.length + 2) _ hto₃.wf
  have ha₄ := h₄.reserved (ha₃.startBlock (by simp))
  have hend := (hto₃.trans h.wf h₄).startBlock (by simp) ha₄
  rw [genWhile_eq] at hcov ⊢
  have hcov₄ := Covers.startBlock hcov
  have hcov₃ := (hcov₄.of_grows hto₃.wf h₄).startBlock.popLoop
  have hcov₂ := hcov₃.of_grows h₂.wf (termJmp_grows (k := 0) h₂.wf _)
  have hcov₁ : Covers F (g.newBlock.2.newBlock.2.newBlock.2.termJmp (g.blocks.length + 1)) := by
    have hpush := hcov₃.of_grows hin h₂'
    exact ⟨hpush.length_le, hpush.insts, hpush.closed⟩
  have halt := Nat.lt_of_lt_of_le ha₄.lt hcov₄.length_le
  have hclt := Nat.lt_trans (Nat.lt_succ_self _) halt
  have hblt := Nat.lt_trans (Nat.lt_succ_self _) hclt
  have hjoin := fun R G => here_startBlock ha₄ F R G
  rw [hscopes]
  -- The execution first goes to the condition.
  have hentry : ∀ (R : Regs) (G : Globals),
      Steps (F.step call) (g.here F R G) (F.start (g.blocks.length + 1) R G) := by
    intro R G
    rw [← here_newBlock h.wf, ← here_newBlock (newBlock_grows (k := 0) h.wf).wf,
      ← here_newBlock (twoBlocks (k := 0) h.wf).1.wf]
    exact .single (step_termJmp _ hnew.wf h.opened hcov₁ hclt R G)
  refine .head (hentry R G) ?_
  refine (reaches_turns (b := g.blocks.length) (c := g.blocks.length + 1)
    (d := g.blocks.length + 2) (by simp) (fun env G => evalExpr voids call env e G) exec
    (fun n R env G henv => ?_) (fun n R env G henv => ?_) n R env G h.env).then_ ?_
  · rw [← here_startBlock hc₃]
    refine (hcond hto₃.wf rfl (henv.later hS h.wf hto₃) hblt halt hcov₄).mono ?_
    rintro a _ - ⟨R', rfl, hR'⟩
    exact ⟨R', rfl, henv.of_irId hS h.wf (fun _ _ => rfl) fun r hr =>
      hR' r (Nat.lt_of_lt_of_le hr hto₃.nextVreg_le)⟩
  · have hready := (h.startBlock hto₁ henv).pushLoop hin
    rw [← here_startBlock hb₁]
    refine (hbody n _ R env G hready hcov₂).then_ ?_
    rintro ⟨flow, G'⟩ c - hx
    have hback : ∀ {R env}, EnvRel A _ R S.scopes env → EnvRel A g R S.scopes env := fun henv =>
      henv.of_irId hS hin (fun id hid => (hto₁.irId id hid).symm) (.refl _ _)
    cases flow with
    | normal env' =>
      obtain ⟨R', rfl, hopen', henv'⟩ := hx
      rw [hscopes₁] at henv'
      refine .head (.single (step_termJmp _ h₂.wf hopen' hcov₃ hclt R' G')) (.of_post ⟨R', rfl, ?_⟩)
      exact hback (henv'.earlier hS h₂)
    | brk env' =>
      obtain ⟨l, ls, R', hl, rfl, henv'⟩ := hx
      cases hl
      exact .of_post ⟨R', rfl, hback henv'⟩
    | cont env' =>
      obtain ⟨l, ls, R', hl, rfl, henv'⟩ := hx
      cases hl
      exact .of_post ⟨R', rfl, hback henv'⟩
    | ret v => exact .of_post hx
  · rintro ⟨flow, G'⟩ c - hx
    cases flow with
    | normal env' =>
      obtain ⟨R', rfl, henv'⟩ := hx
      exact .of_post ⟨R', (hjoin R' G').symm, rfl, henv'.later hS h.wf hend⟩
    | brk env' | cont env' => exact hx.elim
    | ret v => exact .of_post hx

/-! ## All statements -/

theorem prefix_of_grows {S₁ : Sema} {names : List String} (h : Sema.Grows S names S₁)
    (hA : S₁.arena <+: A.arena) : S.arena <+: A.arena := by
  obtain ⟨syms, hs⟩ := h.arena
  exact List.IsPrefix.trans ⟨syms, hs.symm⟩ hA

/-- Conditions are lowered correctly. -/
theorem genCond_branches (hst : Static voids A S) {e : Expr} {e' : AExpr}
    (h : analyzeExpr S e = .ok e') : Branches voids F call A S (genCond A e') e :=
  fun hg hopen henv ht hf => (genExpr_lowered hst h).jumps hg hopen henv ht hf

/-- A statement that declares nothing leaves the scopes as they were. -/
theorem scopes_of_not_decl {s : Stmt} {s' : AStmt} (h : analyzeStmt S s = .ok (s', S'))
    (hdecl : s.isDecl = false) (hd : s.declsInBlocks = true) : S'.scopes = S.scopes := by
  have hgrows := analyzeStmt_grows h
  rw [s.binds_eq_nil hdecl hd] at hgrows
  exact hgrows.scopes_eq

/-- Pruning a conditional whose condition is a constant. -/
theorem Executes.of_const {e : Expr} {e' : AExpr} {gen : IRGen → IRGen}
    {exec : Nat → Env → Globals → Outcome (Flow × Globals)}
    {exec' : Nat → Env → Globals → Word × Globals → Outcome (Flow × Globals)}
    (h : analyzeExpr S e = .ok e') (hc : e'.isConst = true)
    (hexec : ∀ n env G, exec' n env G (e'.constValue, G) = exec n env G)
    (hgen : Executes voids F call A S S' gen exec) :
    Executes voids F call A S S' gen fun n env G =>
      evalExpr voids call env e G >>= fun a => exec' n env G a := by
  intro n g R env G hready hcov
  simp only [analyzeExpr_const hready.static.toPlaced hready.env G e h hc, Outcome.ok_bind, hexec]
  exact hgen n g R env G hready hcov

/-- The scopes of two points of the analysis are the same. -/
theorem Executes.of_scopes {S₁ : Sema} {gen : IRGen → IRGen}
    {exec : Nat → Env → Globals → Outcome (Flow × Globals)}
    (h : Executes voids F call A S₁ S' gen exec) (hst : Static voids A S₁)
    (hdepth : S₁.loopDepth = S.loopDepth) (hscopes : S₁.scopes = S.scopes) :
    Executes voids F call A S S' gen exec := by
  intro n g R env G hready hcov
  have hexec := h n g R env G
    ⟨hst, hready.wf, hready.opened, by rw [hdepth, hready.depth], by rw [hscopes]; exact hready.env⟩
    hcov
  rwa [hscopes] at hexec

/-- The same behind the statement. -/
theorem Executes.behind {S₁ : Sema} {gen : IRGen → IRGen}
    {exec : Nat → Env → Globals → Outcome (Flow × Globals)}
    (h : Executes voids F call A S S₁ gen exec) (hscopes : S'.scopes = S₁.scopes) :
    Executes voids F call A S S' gen exec := by
  intro n g R env G hready hcov
  rw [hscopes]
  exact h n g R env G hready hcov

theorem EnvRel.tail {g : IRGen} {R : Regs} {scopes : List Scope} {env : Env}
    (h : EnvRel A g R scopes env) : EnvRel A g R scopes.tail env.tail := by
  cases h with
  | nil => exact .nil
  | cons _ h => exact h

/-- Ready for the items of a block. -/
theorem Ready.pushScope {g : IRGen} {R : Regs} {env : Env} (h : Ready voids A S g R env) :
    Ready voids A S.pushScope g R ([] :: env) where
  static := ⟨⟨h.static.inOrder.pushScope, h.static.arena⟩, h.static.funcs⟩
  wf := h.wf
  opened := h.opened
  depth := h.depth
  env := .cons .nil h.env

mutual
/-- **The lowering of a statement is correct.** -/
theorem genStmt_executes {S S' : Sema} {s : Stmt} {s' : AStmt}
    (h : analyzeStmt S s = .ok (s', S')) (hd : s.declsInBlocks = true)
    (hst : Static voids A S) (hA : S'.arena <+: A.arena) :
    Executes voids F call A S S' (genStmt A s') fun n env G => execStmt voids call n s env G := by
  match s with
  | .block _ ss =>
    simp only [analyzeStmt, bind_eq_ok, Prod.exists] at h
    obtain ⟨ss', S₁, hss, h⟩ := h
    cases h
    intro n g R env G hready hcov
    refine (genStmts_executes hss hd ⟨⟨hst.inOrder.pushScope, hst.arena⟩, hst.funcs⟩ hA
      hready.pushScope hcov).bind ?_
    rintro ⟨flow, G'⟩ c - hx
    cases flow with
    | normal env' =>
      obtain ⟨R', rfl, hopen', henv'⟩ := hx
      exact .of_post ⟨R', rfl, hopen', henv'.tail⟩
    | brk env' | cont env' => exact .of_post hx
    | ret v => exact .of_post hx
  | .empty _ =>
    cases h
    intro n g R env G hready hcov
    exact .of_post ⟨R, rfl, hready.opened, hready.env⟩
  | .exprStmt _ e =>
    simp only [analyzeStmt, bind_eq_ok] at h
    obtain ⟨e', he, h⟩ := h
    cases h
    intro n g R env G hready hcov
    refine ((genExpr_lowered hst he).value hready.wf hready.opened hready.env hcov).bind ?_
    rintro a _ - ⟨R₁, rfl, hopen₁, hR₁, -, -⟩
    exact .of_post ⟨R₁, rfl, hopen₁,
      hready.env.after hready.wf (fun k => genExpr_lowers A e' k g hready.wf) hR₁⟩
  | .assign line x value =>
    simp only [analyzeStmt, bind_eq_ok] at h
    obtain ⟨s₁, hs₁, h⟩ := h
    cases h
    unfold analyzeAssign at hs₁
    split at hs₁
    · cases hs₁
    · rename_i id hx
      split at hs₁
      · cases hs₁
      · rename_i hc
        simp only [bind_eq_ok] at hs₁
        obtain ⟨value', hvalue, hs₁⟩ := hs₁
        cases hs₁
        exact genAssign_executes hx (Bool.not_eq_true _ ▸ hc) hvalue
  | .varDecl line isConst x init =>
    simp only [analyzeStmt, analyzeVarDecl, bind_eq_ok] at h
    obtain ⟨init', hinit, h⟩ := h
    cases isConst with
    | true =>
      simp only [if_true] at h
      split at h
      · cases h
      · rename_i hc
        cases h
        exact constDecl_executes hinit (by simpa using hc) rfl rfl hA
    | false =>
      simp only [Bool.false_eq_true, if_false] at h
      cases h
      exact genVarDecl_executes hinit rfl (by simp) hA
  | .ifStmt _ cond then_ none =>
    simp only [analyzeStmt, bind_eq_ok, Prod.exists] at h
    obtain ⟨cond', hcond, then', S₁, hthen, h⟩ := h
    cases h
    simp only [Stmt.declsInBlocks, Bool.and_eq_true, Bool.not_eq_true'] at hd
    have ih := genStmt_executes hthen hd.2 hst hA
    have hscopes := scopes_of_not_decl hthen hd.1 hd.2
    cases hconst : cond'.isConst with
    | true =>
      by_cases hv : cond'.constValue = 0#32
      · have hgen : genStmt A (.ifStmt cond' then' none) = id := by
          funext g
          simp [genStmt, hconst, hv]
        rw [hgen]
        have hskip : Executes voids F call A S S' id fun _ env G => .ok (.normal env, G) :=
          fun n g R env G hready hcov =>
            .of_post ⟨R, rfl, hready.opened, by rw [hscopes]; exact hready.env⟩
        exact Executes.of_const hcond hconst (fun n env G => by simp [hv]) hskip
      · have hgen : genStmt A (.ifStmt cond' then' none) = genStmt A then' := by
          funext g
          simp [genStmt, hconst, hv]
        rw [hgen]
        exact Executes.of_const hcond hconst
          (fun n env G => by simp [Word.truthy_eq_true.mpr hv]) ih
    | false =>
      have hgen : genStmt A (.ifStmt cond' then' none) =
          genIf (genCond A cond') (genStmt A then') := by
        funext g
        simp [genStmt, hconst]
      rw [hgen]
      exact genIf_executes (genCond_jumps A cond') (genCond_branches hst hcond)
        (genStmt_writes hthen (Nat.le_refl _)) ih hscopes
  | .ifStmt _ cond then_ (some else_) =>
    simp only [analyzeStmt, bind_eq_ok, Prod.exists] at h
    obtain ⟨cond', hcond, then', S₁, hthen, else', S₂, helse, h⟩ := h
    cases h
    simp only [Stmt.declsInBlocks, Bool.and_eq_true, Bool.not_eq_true'] at hd
    obtain ⟨⟨hd₁, hd₁'⟩, hd₂, hd₂'⟩ := hd
    have hgrows := analyzeStmt_grows hthen
    have hA₁ := prefix_of_grows (analyzeStmt_grows helse) hA
    have hst₁ := hst.grows hgrows hA₁
    have ih₁ := genStmt_executes hthen hd₁' hst hA₁
    have ih₂ := genStmt_executes helse hd₂' hst₁ hA
    have hscopes₁ := scopes_of_not_decl hthen hd₁ hd₁'
    have hscopes := (scopes_of_not_decl helse hd₂ hd₂').trans hscopes₁
    cases hconst : cond'.isConst with
    | true =>
      by_cases hv : cond'.constValue = 0#32
      · have hgen : genStmt A (.ifStmt cond' then' (some else')) = genStmt A else' := by
          funext g
          simp [genStmt, hconst, hv]
        rw [hgen]
        exact Executes.of_const hcond hconst (fun n env G => by simp [hv])
          (ih₂.of_scopes hst₁ hgrows.loopDepth hscopes₁)
      · have hgen : genStmt A (.ifStmt cond' then' (some else')) = genStmt A then' := by
          funext g
          simp [genStmt, hconst, hv]
        rw [hgen]
        exact Executes.of_const hcond hconst
          (fun n env G => by simp [Word.truthy_eq_true.mpr hv])
          (ih₁.behind (hscopes.trans hscopes₁.symm))
    | false =>
      have hgen : genStmt A (.ifStmt cond' then' (some else')) =
          genIfElse (genCond A cond') (genStmt A then') (genStmt A else') := by
        funext g
        simp [genStmt, hconst]
      rw [hgen]
      exact genIfElse_executes (genCond_jumps A cond') (genCond_branches hst hcond)
        (genStmt_writes hthen (Nat.le_refl _)) (genStmt_writes helse hgrows.length_le) ih₁ ih₂
        hst₁ hgrows.loopDepth hscopes₁ hscopes
  | .whileStmt _ cond body =>
    simp only [analyzeStmt, bind_eq_ok, Prod.exists] at h
    obtain ⟨cond', hcond, body', S₁, hbody, h⟩ := h
    cases h
    simp only [Stmt.declsInBlocks, Bool.and_eq_true, Bool.not_eq_true'] at hd
    have hst' : Static voids A { S with loopDepth := S.loopDepth + 1 } :=
      ⟨⟨⟨hst.inOrder.lt, hst.inOrder.nodup⟩, hst.arena⟩, hst.funcs⟩
    have ih := genStmt_executes hbody hd.2 hst' hA
    have hscopes := scopes_of_not_decl hbody hd.1 hd.2
    exact genWhile_executes (genCond_jumps A cond') (genCond_branches hst hcond)
      (genStmt_writes hbody (Nat.le_refl _)) ih hscopes hscopes
  | .breakStmt line =>
    simp only [analyzeStmt] at h
    split at h
    · cases h
    · rename_i hdepth
      cases h
      intro n g R env G hready hcov
      obtain ⟨l, ls, hl⟩ := List.exists_cons_of_ne_nil fun hnil =>
        hdepth (hready.depth.trans (congrArg List.length hnil))
      have hlt := (hready.wf.loops_lt l (by rw [hl]; exact List.mem_cons_self)).2
      have hle := (termJmp_grows (k := 0) hready.wf (g.loops.headD default).breakBB).length_le
      have hgen : (g.loops.headD default).breakBB = l.breakBB := by rw [hl]; rfl
      have hstep := step_termJmp call hready.wf hready.opened hcov (by
        rw [hgen]
        exact Nat.lt_of_lt_of_le hlt (Nat.le_trans hle hcov.length_le)) R G
      rw [hgen] at hstep
      exact .head (.single hstep) (.of_post ⟨l, ls, R, hl, rfl, hready.env⟩)
  | .continueStmt line =>
    simp only [analyzeStmt] at h
    split at h
    · cases h
    · rename_i hdepth
      cases h
      intro n g R env G hready hcov
      obtain ⟨l, ls, hl⟩ := List.exists_cons_of_ne_nil fun hnil =>
        hdepth (hready.depth.trans (congrArg List.length hnil))
      have hlt := (hready.wf.loops_lt l (by rw [hl]; exact List.mem_cons_self)).1
      have hle := (termJmp_grows (k := 0) hready.wf (g.loops.headD default).continueBB).length_le
      have hgen : (g.loops.headD default).continueBB = l.continueBB := by rw [hl]; rfl
      have hstep := step_termJmp call hready.wf hready.opened hcov (by
        rw [hgen]
        exact Nat.lt_of_lt_of_le hlt (Nat.le_trans hle hcov.length_le)) R G
      rw [hgen] at hstep
      exact .head (.single hstep) (.of_post ⟨l, ls, R, hl, rfl, hready.env⟩)
  | .returnStmt _ none =>
    cases h
    intro n g R env G hready hcov
    exact .of_post (Ends.of_step (step_termRet _ hready.wf hready.opened hcov R G))
  | .returnStmt _ (some value) =>
    simp only [analyzeStmt, bind_eq_ok] at h
    obtain ⟨value', hvalue, h⟩ := h
    cases h
    intro n g R env G hready hcov
    have h₁ := genExpr_lowers A value' 0 g hready.wf
    refine ((genExpr_lowered hst hvalue).value hready.wf hready.opened hready.env
      (hcov.of_grows h₁.wf (termRet_grows (k := 0) h₁.wf _ _))).bind ?_
    rintro a _ - ⟨R₁, rfl, hopen₁, -, -, hval⟩
    refine .of_post ?_
    have hstep := step_termRet call h₁.wf hopen₁ hcov R₁ a.2
    rw [if_pos rfl, hval] at hstep
    exact Ends.of_step hstep
/-- The same for the items of a block, up to the innermost scope. -/
theorem genStmts_executes {S S' : Sema} {ss : List Stmt} {ss' : List AStmt}
    (h : analyzeStmts S ss = .ok (ss', S')) (hd : Stmts.declsInBlocks ss = true)
    (hst : Static voids A S) (hA : S'.arena <+: A.arena) {n : Nat} {g : IRGen} {R : Regs}
    {env : Env} {G : Globals} (hready : Ready voids A S g R env)
    (hcov : Covers F (genStmts A ss' g)) :
    Reaches (F.step call) n (g.here F R G) (execStmts voids call n ss env G)
      (Leaves F call A g (genStmts A ss' g) S'.scopes fun R env =>
        EnvRel A g R S.scopes.tail env.tail) := by
  match ss with
  | [] =>
    cases h
    exact .of_post ⟨R, rfl, hready.opened, hready.env⟩
  | s :: ss =>
    simp only [analyzeStmts, bind_eq_ok, Prod.exists] at h
    obtain ⟨s', S₁, hs, ss', S₂, hss, h⟩ := h
    cases h
    simp only [Stmts.declsInBlocks, Bool.and_eq_true] at hd
    have hgrows := analyzeStmt_grows hs
    have hA₁ := prefix_of_grows (analyzeStmts_grows hss) hA
    have hst₁ := hst.grows hgrows hA₁
    have h₁ := genStmt_writes (A := A) hs (Nat.le_refl _) g hready.wf
    have h₂ := genStmts_writes (A := A) hss (Nat.le_refl _) _ h₁.wf
    refine (genStmt_executes hs hd.1 hst hA₁ n g R env G hready
      (hcov.of_grows h₁.wf h₂)).bind ?_
    rintro ⟨flow, G'⟩ c - hx
    cases flow with
    | normal env' =>
      obtain ⟨R', rfl, hopen', henv'⟩ := hx
      have hready' : Ready voids A S₁ (genStmt A s' g) R' env' :=
        ⟨hst₁, h₁.wf, hopen', by rw [hgrows.loopDepth, hready.depth, h₁.loops], henv'⟩
      refine (genStmts_executes hss hd.2 hst₁ hA hready' hcov).then_ fun x c _ hx => ?_
      refine hx.enclose h₁.loops (fun R env henv => ?_) fun R env G _ hopen henv =>
        .of_post ⟨R, rfl, hopen, henv⟩
      rw [hgrows.scopes_tail] at henv
      exact henv.mono h₁.wf (fun scope hsc p hp => (h₁.irId p.2
        (hst.inOrder.lt scope (List.mem_of_mem_tail hsc) p hp)).symm) (.refl _ _)
    | brk env' | cont env' =>
      obtain ⟨l, ls, R', hl, rfl, henv'⟩ := hx
      exact .of_post ⟨l, ls, R', hl, rfl, henv'.tail⟩
    | ret v => exact .of_post hx
end

end Statements

end IRGen

end ToyC
