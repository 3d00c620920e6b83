import ToyC.IRGenInit
import ToyC.IRRuns

/-!
# Generated code refers to what there is

The analysis gives each global variable a number below the count of them
(`GlobalsNumbered`), and resolves a call to a function of the module that has as many parameters as
the call has arguments (`AExpr.callsFit`). So the instructions that the generator makes of an
accepted module load and store its globals only, and call its functions with as many arguments as
they take, for a value only those that return one (`generate_closed`).
-/

namespace ToyC

/-- **Code that refers to what there is** in its module. -/
structure IRModule.Closed (m : IRModule) : Prop where
  globals : ∀ F ∈ m.funcs, ∀ inst ∈ F.insts, inst.op = .LoadGlobal ∨ inst.op = .StoreGlobal →
    inst.gid < m.globals.length
  calls : ∀ F ∈ m.funcs, ∀ inst ∈ F.insts, inst.op = .Call → ∃ G ∈ m.funcs, G.name = inst.callee ∧
    G.paramRegs.length = inst.args.length ∧ (inst.dst ≠ none → G.returnsVoid = false)

/-! ## The numbers of the globals -/

namespace Sema

/-- **Global variables are numbered** below their count. -/
def GlobalsNumbered (S : Sema) : Prop :=
  ∀ sym ∈ S.arena, sym.kind = .GlobalVar → ∃ k < S.globalCount, sym.globalId = some k

section Numbered

variable {S S' : Sema}

theorem GlobalsNumbered.of_eq (h : S.GlobalsNumbered) (harena : S'.arena = S.arena)
    (hcount : S'.globalCount = S.globalCount) : S'.GlobalsNumbered := by
  intro sym hsym hkind
  rw [hcount]
  exact h sym (harena ▸ hsym) hkind

/-- A symbol that is none of a global variable. -/
theorem GlobalsNumbered.declare (h : S.GlobalsNumbered) {sym : Symbol}
    (hkind : sym.kind ≠ .GlobalVar) : (S.declare sym).2.GlobalsNumbered := by
  intro sym' hmem hkind'
  rcases List.mem_append.mp (show sym' ∈ S.arena ++ [sym] from hmem) with hmem | hmem
  · exact h sym' hmem hkind'
  · rw [List.mem_singleton.mp hmem] at hkind'
    exact absurd hkind' hkind

theorem declareParams_numbered (ps : List String) (h : S.GlobalsNumbered) :
    (declareParams S ps).2.GlobalsNumbered := by
  induction ps generalizing S with
  | nil => exact h
  | cons p ps ih => exact ih (h.declare (by simp))

theorem analyzeVarDecl_numbered {line : Nat} {isConst : Bool} {name : String} {init : Expr}
    {s' : AStmt} (h : S.GlobalsNumbered)
    (hdecl : analyzeVarDecl S line isConst name init = .ok (s', S')) : S'.GlobalsNumbered := by
  simp only [analyzeVarDecl, bind_eq_ok] at hdecl
  obtain ⟨init', -, hdecl⟩ := hdecl
  split at hdecl
  · split at hdecl
    · cases hdecl
    · cases hdecl
      exact h.declare (by simp)
  · cases hdecl
    exact h.declare (by simp)

mutual
/-- **Analysing a statement** declares no global. -/
theorem analyzeStmt_numbered {S S' : Sema} {s : Stmt} {s' : AStmt} (h : S.GlobalsNumbered)
    (hs : analyzeStmt S s = .ok (s', S')) : S'.GlobalsNumbered := by
  match s with
  | .block _ ss =>
    simp only [analyzeStmt, bind_eq_ok, Prod.exists] at hs
    obtain ⟨ss', S₁, hss, hs⟩ := hs
    cases hs
    exact (analyzeStmts_numbered (S := S.pushScope) h hss).of_eq rfl rfl
  | .empty _ =>
    cases hs
    exact h
  | .exprStmt _ _ | .assign _ _ _ =>
    simp only [analyzeStmt, bind_eq_ok] at hs
    obtain ⟨_, -, hs⟩ := hs
    cases hs
    exact h
  | .varDecl line isConst name init => exact analyzeVarDecl_numbered h hs
  | .ifStmt _ cond then_ none =>
    simp only [analyzeStmt, bind_eq_ok, Prod.exists] at hs
    obtain ⟨_, -, _, S₁, hthen, hs⟩ := hs
    cases hs
    exact analyzeStmt_numbered h hthen
  | .ifStmt _ cond then_ (some else_) =>
    simp only [analyzeStmt, bind_eq_ok, Prod.exists] at hs
    obtain ⟨_, -, _, S₁, hthen, _, S₂, helse, hs⟩ := hs
    cases hs
    exact analyzeStmt_numbered (analyzeStmt_numbered h hthen) helse
  | .whileStmt _ cond body =>
    simp only [analyzeStmt, bind_eq_ok, Prod.exists] at hs
    obtain ⟨_, -, _, S₁, hbody, hs⟩ := hs
    cases hs
    exact (analyzeStmt_numbered (S := { S with loopDepth := S.loopDepth + 1 }) h hbody).of_eq
      rfl rfl
  | .breakStmt line | .continueStmt line =>
    simp only [analyzeStmt] at hs
    split at hs
    · cases hs
    · cases hs
      exact h
  | .returnStmt _ none =>
    cases hs
    exact h
  | .returnStmt _ (some value) =>
    simp only [analyzeStmt, bind_eq_ok] at hs
    obtain ⟨_, -, hs⟩ := hs
    cases hs
    exact h
/-- The same for the statements of a block. -/
theorem analyzeStmts_numbered {S S' : Sema} {ss : List Stmt} {ss' : List AStmt}
    (h : S.GlobalsNumbered) (hss : analyzeStmts S ss = .ok (ss', S')) : S'.GlobalsNumbered := by
  match ss with
  | [] =>
    cases hss
    exact h
  | s :: ss =>
    simp only [analyzeStmts, bind_eq_ok, Prod.exists] at hss
    obtain ⟨s', S₁, hs, ss', S₂, hss, heq⟩ := hss
    cases heq
    exact analyzeStmts_numbered (analyzeStmt_numbered h hs) hss
end

theorem analyzeFunc_numbered {fn : FuncDef} {fn' : AFuncDef} (h : S.GlobalsNumbered)
    (hfn : analyzeFunc S fn = .ok (fn', S')) : S'.GlobalsNumbered := by
  simp only [analyzeFunc, bind_eq_ok, Prod.exists] at hfn
  obtain ⟨body, S₁, hbody, hfn⟩ := hfn
  cases hfn
  have hparams : (declareParams S.pushScope fn.params).2.GlobalsNumbered :=
    declareParams_numbered fn.params (S := S.pushScope) h
  exact (analyzeStmt_numbered hparams hbody).of_eq rfl rfl

theorem analyzeBodies_numbered {regs : List Registered} {items : List ATopLevel}
    (h : S.GlobalsNumbered) (hbodies : analyzeBodies S regs = .ok (items, S')) :
    S'.GlobalsNumbered := by
  induction regs generalizing S items with
  | nil =>
    cases hbodies
    exact h
  | cons reg regs ih =>
    cases reg with
    | global g =>
      simp only [analyzeBodies, bind_eq_ok, Prod.exists] at hbodies
      obtain ⟨items₁, S₁, hitems, heq⟩ := hbodies
      cases heq
      exact ih h hitems
    | func fn =>
      simp only [analyzeBodies, bind_eq_ok, Prod.exists] at hbodies
      obtain ⟨fn', S₁, hfn, items₁, S₂, hitems, heq⟩ := hbodies
      cases heq
      exact ih (analyzeFunc_numbered h hfn) hitems

/-- A global takes the next number. -/
theorem analyzeGlobal_numbered {g : GlobalVar} {g' : AGlobalVar} (h : S.GlobalsNumbered)
    (hg : analyzeGlobal S g = .ok (g', S')) : S'.GlobalsNumbered := by
  obtain ⟨e, sym, -, -, -, -, harena, -, -, -, hconst, hvar⟩ := analyzeGlobal_ok hg
  intro sym' hmem hkind
  rw [harena] at hmem
  cases hc : g.isConst with
  | true =>
    obtain ⟨hk, -, -, hcount⟩ := hconst hc
    rw [hcount]
    rcases List.mem_append.mp hmem with hmem | hmem
    · exact h sym' hmem hkind
    · rw [List.mem_singleton.mp hmem, hk] at hkind
      cases hkind
  | false =>
    obtain ⟨-, -, hid, hcount⟩ := hvar hc
    rw [hcount]
    rcases List.mem_append.mp hmem with hmem | hmem
    · obtain ⟨k, hk, hsym⟩ := h sym' hmem hkind
      exact ⟨k, Nat.lt_succ_of_lt hk, hsym⟩
    · rw [List.mem_singleton.mp hmem]
      exact ⟨_, Nat.lt_succ_self _, hid⟩

theorem registerItems_numbered {items : List TopLevel} {index : Nat} {regs : List Registered}
    (h : S.GlobalsNumbered) (hitems : registerItems S index items = .ok (regs, S')) :
    S'.GlobalsNumbered := by
  induction items generalizing S index regs with
  | nil =>
    cases hitems
    exact h
  | cons item items ih =>
    cases item with
    | global g =>
      simp only [registerItems, bind_eq_ok, Prod.exists] at hitems
      obtain ⟨g', S₁, hg, regs₁, S₂, hregs, heq⟩ := hitems
      cases heq
      exact ih (analyzeGlobal_numbered h hg) hregs
    | func fn =>
      simp only [registerItems, bind_eq_ok, Prod.exists] at hitems
      obtain ⟨S₁, hfn, regs₁, S₂, hregs, heq⟩ := hitems
      cases heq
      obtain ⟨-, rfl⟩ := registerFunc_ok hfn
      refine ih ?_ hregs
      exact h

/-- **Of an accepted module** the global variables are numbered. -/
theorem analyze_numbered {m : Module} {m' : AModule} {A : Sema} (h : analyze m = .ok (m', A)) :
    A.GlobalsNumbered := by
  simp only [analyze, bind_eq_ok, Prod.exists] at h
  obtain ⟨regs, S₀, hregs, h⟩ := h
  split at h
  · cases h
  · simp only [bind_eq_ok, Prod.exists] at h
    obtain ⟨items, S₁, hitems, h⟩ := h
    cases h
    have h₀ : S₀.GlobalsNumbered := registerItems_numbered (by
      intro sym hmem
      cases hmem) hregs
    exact (analyzeBodies_numbered h₀ hitems).of_eq rfl rfl

/-- So is whatever symbol is looked up. -/
theorem GlobalsNumbered.symbol (h : S.GlobalsNumbered) {id : SymId}
    (hk : (S.symbol id).kind = .GlobalVar) : (S.symbol id).globalId.getD 0 < S.globalCount := by
  unfold Sema.symbol at hk ⊢
  cases hid : S.arena[id]? with
  | none =>
    rw [List.getD_eq_getElem?_getD, hid] at hk
    cases hk
  | some sym =>
    rw [List.getD_eq_getElem?_getD, hid] at hk ⊢
    obtain ⟨k, hlt, hk'⟩ := h sym (List.mem_of_getElem? hid) hk
    rw [Option.getD_some, hk']
    exact hlt

end Numbered

end Sema

/-! ## Calls -/

mutual
/-- **The calls of an expression fit**: their targets are known, and take as many arguments. -/
def AExpr.callsFit (known : FuncRef → Prop) : AExpr → Prop
  | .number _ _ | .var _ _ _ => True
  | .binary _ _ lhs rhs | .logical _ _ lhs rhs => lhs.callsFit known ∧ rhs.callsFit known
  | .unary _ _ operand => operand.callsFit known
  | .call _ _ args target =>
    known target ∧ args.length = target.arity ∧ AExprs.callsFit known args
/-- The same for the arguments of a call. -/
def AExprs.callsFit (known : FuncRef → Prop) : List AExpr → Prop
  | [] => True
  | e :: es => e.callsFit known ∧ AExprs.callsFit known es
end

/-- **What the code of a function may refer to**: so many globals, and the functions that are known.
If it is not `void`, it must not return without a value. -/
structure Referents where
  globalCount : Nat
  known : FuncRef → Prop
  isVoid : Bool

/-- The numbers of the globals are among those. -/
def Sema.NumberedIn (S : Sema) (ctx : Referents) : Prop :=
  ∀ id, (S.symbol id).kind = .GlobalVar → (S.symbol id).globalId.getD 0 < ctx.globalCount

mutual
/-- **A statement fits** when its calls do, and it returns as the function should. -/
def AStmt.fits (ctx : Referents) : AStmt → Prop
  | .block ss => AStmts.fits ctx ss
  | .exprStmt e | .assign _ _ e | .varDecl _ _ e _ | .returnStmt (some e) => e.callsFit ctx.known
  | .ifStmt cond then_ none => cond.callsFit ctx.known ∧ then_.fits ctx
  | .ifStmt cond then_ (some else_) => cond.callsFit ctx.known ∧ then_.fits ctx ∧ else_.fits ctx
  | .whileStmt cond body => cond.callsFit ctx.known ∧ body.fits ctx
  | .returnStmt none => ctx.isVoid = true
  | .empty | .breakStmt | .continueStmt => True
/-- The same for the statements of a block. -/
def AStmts.fits (ctx : Referents) : List AStmt → Prop
  | [] => True
  | s :: ss => s.fits ctx ∧ AStmts.fits ctx ss
end

mutual
/-- Whether a statement can return without a value. -/
def Stmt.returnsNothing : Stmt → Bool
  | .block _ ss => Stmts.returnsNothing ss
  | .ifStmt _ _ then_ none => then_.returnsNothing
  | .ifStmt _ _ then_ (some else_) => then_.returnsNothing || else_.returnsNothing
  | .whileStmt _ _ body => body.returnsNothing
  | .returnStmt _ none => true
  | .empty _ | .exprStmt _ _ | .assign _ _ _ | .varDecl _ _ _ _ | .breakStmt _ | .continueStmt _
  | .returnStmt _ (some _) => false
/-- The same for the statements of a block. -/
def Stmts.returnsNothing : List Stmt → Bool
  | [] => false
  | s :: ss => s.returnsNothing || Stmts.returnsNothing ss
end

/-- **No function with a value returns without one.** -/
def Module.returnsValues (m : Module) : Bool :=
  m.items.all fun
    | .func fn => fn.returnsVoid || !Stmts.returnsNothing fn.body
    | .global _ => true

namespace Sema

/-- **A function of the table.** -/
def Knows (funcs : List (String × FuncRef)) (r : FuncRef) : Prop := ∃ c, funcs.lookup c = some r

mutual
/-- **Analysing an expression** makes sure that its calls fit. -/
theorem analyzeExpr_callsFit {S : Sema} {e : Expr} {e' : AExpr} (h : analyzeExpr S e = .ok e') :
    e'.callsFit (Knows S.funcs) := by
  match e with
  | .number _ _ =>
    cases h
    trivial
  | .var _ name =>
    simp only [analyzeExpr] at h
    split at h
    · cases h
    · cases h
      trivial
  | .binary _ _ lhs rhs =>
    simp only [analyzeExpr, bind_eq_ok] at h
    obtain ⟨lhs', hl, rhs', hr, h⟩ := h
    have hfit := And.intro (analyzeExpr_callsFit hl) (analyzeExpr_callsFit hr)
    split at h
    · split at h
      · cases h
      · cases h
        exact hfit
    · cases h
      exact hfit
  | .logical _ _ lhs rhs =>
    simp only [analyzeExpr, bind_eq_ok] at h
    obtain ⟨lhs', hl, rhs', hr, h⟩ := h
    cases h
    exact ⟨analyzeExpr_callsFit hl, analyzeExpr_callsFit hr⟩
  | .unary _ _ operand =>
    simp only [analyzeExpr, bind_eq_ok] at h
    obtain ⟨operand', ho, h⟩ := h
    cases h
    have hfit := analyzeExpr_callsFit ho
    exact hfit
  | .call _ callee args =>
    simp only [analyzeExpr] at h
    split at h
    · cases h
    · rename_i target htarget
      split at h
      · cases h
      · rename_i harity
        simp only [bind_eq_ok] at h
        obtain ⟨args', ha, h⟩ := h
        cases h
        obtain ⟨hlen, hfit⟩ := analyzeArgs_callsFit ha
        exact ⟨⟨callee, htarget⟩, hlen.trans (not_not.mp harity), hfit⟩
/-- The same for the arguments of a call. -/
theorem analyzeArgs_callsFit {S : Sema} {es : List Expr} {es' : List AExpr}
    (h : analyzeArgs S es = .ok es') :
    es'.length = es.length ∧ AExprs.callsFit (Knows S.funcs) es' := by
  match es with
  | [] =>
    cases h
    exact ⟨rfl, trivial⟩
  | e :: es =>
    simp only [analyzeArgs, bind_eq_ok] at h
    obtain ⟨e', he, es', hes, h⟩ := h
    cases h
    obtain ⟨hlen, hfit⟩ := analyzeArgs_callsFit hes
    exact ⟨congrArg (· + 1) hlen, analyzeExpr_callsFit he, hfit⟩
end

/-- **Analysing a function** keeps its name, its parameters and whether it is `void`. -/
theorem analyzeFunc_shape {S S' : Sema} {fn : FuncDef} {fn' : AFuncDef}
    (h : analyzeFunc S fn = .ok (fn', S')) :
    fn'.name = fn.name ∧ fn'.params.length = fn.params.length ∧
      fn'.returnsVoid = fn.returnsVoid := by
  simp only [analyzeFunc, bind_eq_ok, Prod.exists] at h
  obtain ⟨body, S₁, -, h⟩ := h
  cases h
  exact ⟨rfl, IRGen.declareParams_length _ _, rfl⟩

mutual
/-- **Analysing a statement** makes sure that it fits, if it returns what it should. -/
theorem analyzeStmt_fits {ctx : Referents} {S S' : Sema} {s : Stmt} {s' : AStmt}
    (hknown : ctx.known = Knows S.funcs) (hret : ctx.isVoid = false → s.returnsNothing = false)
    (h : analyzeStmt S s = .ok (s', S')) : s'.fits ctx := by
  have hexpr : ∀ {e e'}, analyzeExpr S e = .ok e' → e'.callsFit ctx.known := fun h =>
    hknown ▸ analyzeExpr_callsFit h
  have hgrows : ∀ {s s' S'}, analyzeStmt S s = .ok (s', S') → ctx.known = Knows S'.funcs :=
    fun h => hknown.trans (congrArg Knows (analyzeStmt_grows h).funcs.symm)
  match s with
  | .block _ ss =>
    simp only [analyzeStmt, bind_eq_ok, Prod.exists] at h
    obtain ⟨ss', S₁, hss, h⟩ := h
    cases h
    exact analyzeStmts_fits (S := S.pushScope) hknown hret hss
  | .empty _ =>
    cases h
    trivial
  | .exprStmt _ e =>
    simp only [analyzeStmt, bind_eq_ok] at h
    obtain ⟨e', he, h⟩ := h
    cases h
    exact hexpr he
  | .assign line name value =>
    simp only [analyzeStmt, bind_eq_ok] at h
    obtain ⟨s₁, hs₁, h⟩ := h
    cases h
    unfold analyzeAssign at hs₁
    split at hs₁
    · cases hs₁
    · split at hs₁
      · cases hs₁
      · simp only [bind_eq_ok] at hs₁
        obtain ⟨value', hvalue, hs₁⟩ := hs₁
        cases hs₁
        exact hexpr hvalue
  | .varDecl line isConst name init =>
    simp only [analyzeStmt, analyzeVarDecl, bind_eq_ok] at h
    obtain ⟨init', hinit, h⟩ := h
    split at h
    · split at h
      · cases h
      · cases h
        exact hexpr hinit
    · cases h
      exact hexpr hinit
  | .ifStmt _ cond then_ none =>
    simp only [analyzeStmt, bind_eq_ok, Prod.exists] at h
    obtain ⟨cond', hcond, then', S₁, hthen, h⟩ := h
    cases h
    exact ⟨hexpr hcond, analyzeStmt_fits (s := then_) hknown hret hthen⟩
  | .ifStmt _ cond then_ (some else_) =>
    simp only [analyzeStmt, bind_eq_ok, Prod.exists] at h
    obtain ⟨cond', hcond, then', S₁, hthen, else', S₂, helse, h⟩ := h
    cases h
    have hret := fun hv => Bool.or_eq_false_iff.mp (hret hv)
    exact ⟨hexpr hcond, analyzeStmt_fits hknown (fun hv => (hret hv).1) hthen,
      analyzeStmt_fits (hgrows hthen) (fun hv => (hret hv).2) helse⟩
  | .whileStmt _ cond body =>
    simp only [analyzeStmt, bind_eq_ok, Prod.exists] at h
    obtain ⟨cond', hcond, body', S₁, hbody, h⟩ := h
    cases h
    exact ⟨hexpr hcond, analyzeStmt_fits (S := { S with loopDepth := S.loopDepth + 1 }) (s := body)
      hknown hret hbody⟩
  | .breakStmt line | .continueStmt line =>
    simp only [analyzeStmt] at h
    split at h
    · cases h
    · cases h
      trivial
  | .returnStmt _ none =>
    cases h
    exact Bool.eq_true_of_not_eq_false fun hv => Bool.noConfusion (hret hv)
  | .returnStmt _ (some value) =>
    simp only [analyzeStmt, bind_eq_ok] at h
    obtain ⟨value', hvalue, h⟩ := h
    cases h
    exact hexpr hvalue
/-- The same for the statements of a block. -/
theorem analyzeStmts_fits {ctx : Referents} {S S' : Sema} {ss : List Stmt} {ss' : List AStmt}
    (hknown : ctx.known = Knows S.funcs)
    (hret : ctx.isVoid = false → Stmts.returnsNothing ss = false)
    (h : analyzeStmts S ss = .ok (ss', S')) : AStmts.fits ctx ss' := by
  match ss with
  | [] =>
    cases h
    trivial
  | s :: ss =>
    simp only [analyzeStmts, bind_eq_ok, Prod.exists] at h
    obtain ⟨s', S₁, hs, ss', S₂, hss, h⟩ := h
    cases h
    have hret := fun hv => Bool.or_eq_false_iff.mp (hret hv)
    exact ⟨analyzeStmt_fits hknown (fun hv => (hret hv).1) hs,
      analyzeStmts_fits (hknown.trans (congrArg Knows (analyzeStmt_grows hs).funcs.symm))
        (fun hv => (hret hv).2) hss⟩
end

end Sema

/-! ## What the instructions refer to -/

/-- **An instruction that refers to what there is**: one of so many globals, a known function. -/
structure Inst.Refers (ctx : Referents) (inst : Inst) : Prop where
  globals : inst.op = .LoadGlobal ∨ inst.op = .StoreGlobal → inst.gid < ctx.globalCount
  calls : inst.op = .Call → ∃ r, ctx.known r ∧ r.name = inst.callee ∧ inst.args.length = r.arity ∧
    (inst.dst ≠ none → r.returnsVoid = false)

/-- An operation on values refers to nothing. -/
theorem Inst.refers_of_op {ctx : Referents} {inst : Inst}
    (hload : inst.op ≠ .LoadGlobal) (hstore : inst.op ≠ .StoreGlobal) (hcall : inst.op ≠ .Call) :
    inst.Refers ctx :=
  ⟨fun h => absurd h (not_or.mpr ⟨hload, hstore⟩), fun h => absurd h hcall⟩

namespace IRGen

/-- **A block that refers to what there is**, and returns as the function should. -/
structure Referring (ctx : Referents) (bb : BasicBlock) : Prop where
  insts : ∀ inst ∈ bb.insts, inst.Refers ctx
  ret : ctx.isVoid = false → bb.term = .Ret → bb.retHasVal = true

/-- All blocks do, and an end of the function will. -/
def Refers (ctx : Referents) (g : IRGen) : Prop :=
  (g.curReturnsVoid = true → ctx.isVoid = true) ∧ ∀ bb ∈ g.blocks, Referring ctx bb

section Refers

variable {ctx : Referents}

/-- **A way of lowering something** that writes no other instructions. -/
def Refs (ctx : Referents) (stmt : IRGen → IRGen) : Prop :=
  ∀ ⦃g : IRGen⦄, g.Refers ctx → (stmt g).Refers ctx

variable {g : IRGen}

theorem newBlock_refers (h : g.Refers ctx) : g.newBlock.2.Refers ctx := by
  refine ⟨h.1, fun bb hbb => ?_⟩
  rcases List.mem_append.mp (show bb ∈ g.blocks ++ [{ id := g.blocks.length }] from hbb)
    with hbb | hbb
  · exact h.2 bb hbb
  · rw [List.mem_singleton.mp hbb]
    exact ⟨fun _ hi => (by cases hi), fun _ ht => by cases ht⟩

theorem startBlock_refers (h : g.Refers ctx) (b : Nat) : (g.startBlock b).Refers ctx := h

theorem ensureOpen_refers (h : g.Refers ctx) : g.ensureOpen.Refers ctx := by
  unfold ensureOpen
  split
  · exact newBlock_refers h
  · exact h

theorem emit_refers (h : g.Refers ctx) {inst : Inst} (hi : inst.Refers ctx) :
    (g.emit inst).Refers ctx := by
  have ho := ensureOpen_refers h
  refine ⟨ho.1, fun bb hbb => ?_⟩
  rcases mem_modify hbb with hbb | ⟨bb', hbb', rfl⟩
  · exact ho.2 bb hbb
  · have hbb' := ho.2 bb' hbb'
    refine ⟨fun inst' hi' => ?_, hbb'.ret⟩
    rcases List.mem_append.mp hi' with hi' | hi'
    · exact hbb'.insts inst' hi'
    · rw [List.mem_singleton.mp hi']
      exact hi

/-- A terminator leaves the instructions as they are. -/
theorem close_refers (h : g.Refers ctx) {f : BasicBlock → BasicBlock}
    (hf : ∀ bb, (f bb).insts = bb.insts)
    (hret : ctx.isVoid = false → ∀ bb, (f bb).term = .Ret → (f bb).retHasVal = true) :
    (g.close f).Refers ctx := by
  have ho := ensureOpen_refers h
  refine ⟨ho.1, fun bb hbb => ?_⟩
  rcases mem_modify hbb with hbb | ⟨bb', hbb', rfl⟩
  · exact ho.2 bb hbb
  · refine ⟨fun inst hi => ?_, fun hv => hret hv bb'⟩
    rw [hf] at hi
    exact (ho.2 bb' hbb').insts inst hi

theorem termJmp_refers (h : g.Refers ctx) (t : Nat) : (g.termJmp t).Refers ctx :=
  close_refers h (f := fun bb => { bb with term := .Jmp, succ0 := t }) (fun _ => rfl)
    fun _ _ ht => by cases ht

theorem termBr_refers (h : g.Refers ctx) (c : Val) (t f : Nat) : (g.termBr c t f).Refers ctx :=
  close_refers h (f := fun bb => { bb with term := .Br, cond := c, succ0 := t, succ1 := f })
    (fun _ => rfl) fun _ _ ht => by cases ht

theorem termRet_refers (h : g.Refers ctx) {hasVal : Bool}
    (hret : ctx.isVoid = false → hasVal = true) (c : Val) : (g.termRet hasVal c).Refers ctx :=
  close_refers h (f := fun bb => { bb with term := .Ret, retHasVal := hasVal, retVal := c })
    (fun _ => rfl) fun hv _ _ => hret hv

/-! ### Expressions -/

/-- The same for a way of lowering to a value, or to values. -/
def RefsVal {α : Type} (ctx : Referents) (gen : IRGen → α × IRGen) : Prop :=
  Refs ctx fun g => (gen g).2

/-- The same for a condition. -/
def RefsCond (ctx : Referents) (cond : Nat → Nat → IRGen → IRGen) : Prop :=
  ∀ t f, Refs ctx (cond t f)

theorem RefsVal.pure {α : Type} (a : α) : RefsVal ctx fun g => (a, g) :=
  fun _ h => h

theorem genVar_refs {S : Sema} (hS : S.NumberedIn ctx) (sym : SymId) :
    RefsVal ctx (genVar S sym) := by
  intro g h
  unfold genVar
  split
  · rename_i hk
    exact emit_refers (g := g.newVreg.2) h ⟨fun _ => hS _ hk, fun h => by cases h⟩
  · exact h

theorem genBinary_refs (op : BinOp) {lhs rhs : IRGen → Val × IRGen}
    (hl : RefsVal ctx lhs) (hr : RefsVal ctx rhs) :
    RefsVal ctx (genBinary op lhs rhs) := by
  intro g h
  refine emit_refers (g := (rhs (lhs g).2).2.newVreg.2) (hr (hl h)) ?_
  cases op <;> exact Inst.refers_of_op (by simp [mapBin]) (by simp [mapBin]) (by simp [mapBin])

theorem genUnary_refs (op : UnOp) {operand : IRGen → Val × IRGen}
    (ho : RefsVal ctx operand) : RefsVal ctx (genUnary op operand) := by
  intro g h
  cases op with
  | Plus => exact ho h
  | Neg | Not =>
    exact emit_refers (g := (operand g).2.newVreg.2) (ho h)
      (Inst.refers_of_op (by simp) (by simp) (by simp))

theorem genCall_refs {target : FuncRef} (hknown : ctx.known target)
    {args : IRGen → List Val × IRGen} (ha : RefsVal ctx args)
    (hlen : ∀ g, (args g).1.length = target.arity) :
    RefsVal ctx (genCall target args) := by
  intro g h
  have hcall : ∀ d : Option Nat, (d ≠ none → target.returnsVoid = false) →
      ({ op := .Call, dst := d, callee := target.name, args := (args g).1 } : Inst).Refers
        ctx :=
    fun d hd => ⟨fun h => by simp at h, fun _ => ⟨target, hknown, rfl, hlen g, hd⟩⟩
  unfold genCall
  split
  · exact emit_refers (ha h) (hcall none (by simp))
  · rename_i hvoid
    exact emit_refers (g := (args g).2.newVreg.2) (ha h)
      (hcall (some _) fun _ => Bool.eq_false_of_not_eq_true hvoid)

theorem genLogicalCond_refs (isOr : Bool) {lhs rhs : Nat → Nat → IRGen → IRGen}
    (hl : RefsCond ctx lhs) (hr : RefsCond ctx rhs) :
    RefsCond ctx (genLogicalCond isOr lhs rhs) := by
  intro t f g h
  cases isOr with
  | true => exact hr t f (startBlock_refers (hl _ _ (newBlock_refers h)) _)
  | false => exact hr t f (startBlock_refers (hl _ _ (newBlock_refers h)) _)

theorem genLogical_refs {cond : Nat → Nat → IRGen → IRGen} (hc : RefsCond ctx cond) :
    RefsVal ctx (genLogical cond) := by
  intro g h
  have hblocks := newBlock_refers (newBlock_refers (newBlock_refers (g := g.newVreg.2) h))
  have hmv : ∀ w : Word, ({ op := .Mv, dst := some g.nextVreg, a := .imm w } : Inst).Refers ctx :=
    fun w => Inst.refers_of_op (by simp) (by simp) (by simp)
  have h₁ := termJmp_refers (emit_refers (startBlock_refers (hc g.newVreg.2.newBlock.1
    g.newVreg.2.newBlock.2.newBlock.1 hblocks) g.newVreg.2.newBlock.1) (hmv 1))
    g.newVreg.2.newBlock.2.newBlock.2.newBlock.1
  exact termJmp_refers (emit_refers (startBlock_refers h₁ g.newVreg.2.newBlock.2.newBlock.1)
    (hmv 0)) _

theorem genBranch_refs {value : IRGen → Val × IRGen} (hv : RefsVal ctx value) :
    RefsCond ctx (genBranch value) :=
  fun _ _ _ h => termBr_refers (hv h) _ _ _

theorem genConstCond_refs (w : Word) : RefsCond ctx (genConstCond w) :=
  fun _ _ _ h => termJmp_refers h _

/-- A folded node writes nothing. -/
theorem RefsVal.fold {gen : IRGen → Val × IRGen} (isConst : Bool) (w : Word)
    (h : RefsVal ctx gen) :
    RefsVal ctx fun g => if isConst then (.imm w, g) else gen g := by
  cases isConst with
  | true => exact RefsVal.pure _
  | false => exact h

/-- Nor does a folded condition. -/
theorem RefsCond.fold {cond : Nat → Nat → IRGen → IRGen} (isConst : Bool) (w : Word)
    (h : RefsCond ctx cond) :
    RefsCond ctx fun t f g => if isConst then genConstCond w t f g else cond t f g := by
  cases isConst with
  | true => exact genConstCond_refs w
  | false => exact h

theorem genArgs_length (S : Sema) (es : List AExpr) (g : IRGen) :
    (genArgs S es g).1.length = es.length := by
  induction es generalizing g with
  | nil => rfl
  | cons e es ih => exact congrArg (· + 1) (ih (genExpr S e g).2)

mutual
/-- **Lowering an expression** writes what refers to what there is. -/
theorem genExpr_refs {S : Sema} (hS : S.NumberedIn ctx) {e : AExpr} (h : e.callsFit ctx.known) :
    RefsVal ctx (genExpr S e) := by
  match e, h with
  | .number note _, _ =>
    intro g hg
    simp only [genExpr]
    split <;> exact hg
  | .var note _ sym, _ => exact (genVar_refs hS sym).fold note.isConst _
  | .binary note op lhs rhs, h =>
    exact (genBinary_refs op (genExpr_refs hS h.1) (genExpr_refs hS h.2)).fold note.isConst _
  | .logical note isOr lhs rhs, h =>
    exact (genLogical_refs (genLogicalCond_refs isOr (genCond_refs hS h.1)
      (genCond_refs hS h.2))).fold note.isConst _
  | .unary note op operand, h =>
    exact (genUnary_refs op (genExpr_refs hS (e := operand) h)).fold note.isConst _
  | .call note _ args target, h =>
    exact (genCall_refs h.1 (genArgs_refs hS h.2.2)
      fun g => (genArgs_length S args g).trans h.2.1).fold note.isConst _
/-- The same for the arguments of a call. -/
theorem genArgs_refs {S : Sema} (hS : S.NumberedIn ctx) {es : List AExpr}
    (h : AExprs.callsFit ctx.known es) : RefsVal ctx (genArgs S es) := by
  match es, h with
  | [], _ => exact RefsVal.pure _
  | e :: es, h => exact fun _ hg => genArgs_refs hS h.2 (genExpr_refs hS h.1 hg)
/-- The same for a condition. -/
theorem genCond_refs {S : Sema} (hS : S.NumberedIn ctx) {e : AExpr} (h : e.callsFit ctx.known) :
    RefsCond ctx (genCond S e) := by
  match e, h with
  | .number note _, _ => exact (genBranch_refs (RefsVal.pure _)).fold note.isConst _
  | .var note _ sym, _ => exact (genBranch_refs (genVar_refs hS sym)).fold note.isConst _
  | .binary note op lhs rhs, h =>
    exact (genBranch_refs (genBinary_refs op (genExpr_refs hS h.1)
      (genExpr_refs hS h.2))).fold note.isConst _
  | .logical note isOr lhs rhs, h =>
    exact (genLogicalCond_refs isOr (genCond_refs hS h.1) (genCond_refs hS h.2)).fold
      note.isConst _
  | .unary note .Not operand, h =>
    have hswap : RefsCond ctx fun t f => genCond S operand f t :=
      fun t f => genCond_refs hS (e := operand) h f t
    exact hswap.fold note.isConst _
  | .unary note .Plus operand, h | .unary note .Neg operand, h =>
    exact (genBranch_refs (genUnary_refs _ (genExpr_refs hS (e := operand) h))).fold
      note.isConst _
  | .call note _ args target, h =>
    exact (genBranch_refs (genCall_refs h.1 (genArgs_refs hS h.2.2)
      fun g => (genArgs_length S args g).trans h.2.1)).fold note.isConst _
end


/-! ### Statements -/

theorem genAssign_refs {S : Sema} (hS : S.NumberedIn ctx) (sym : SymId) {e : AExpr}
    (h : e.callsFit ctx.known) : Refs ctx (genAssign S sym e) := by
  intro g hg
  have hv := genExpr_refs hS h hg
  simp only [genAssign]
  split
  · rename_i hk
    exact emit_refers hv ⟨fun _ => hS _ hk, fun h => by cases h⟩
  · exact emit_refers hv (Inst.refers_of_op (by simp) (by simp) (by simp))

theorem genVarDecl_refs {S : Sema} (hS : S.NumberedIn ctx) {e : AExpr}
    (h : e.callsFit ctx.known) (sym : SymId) :
    Refs ctx (genVarDecl S e sym) := by
  intro g hg
  have hv := genExpr_refs hS h (g := { g.newVreg.2 with irId := (sym, g.nextVreg) :: g.irId }) hg
  exact emit_refers hv (Inst.refers_of_op (by simp) (by simp) (by simp))

section Jumps

variable {cond : Nat → Nat → IRGen → IRGen} {then_ else_ body : IRGen → IRGen}

theorem genIf_refs (hc : RefsCond ctx cond) (ht : Refs ctx then_) :
    Refs ctx (genIf cond then_) := by
  intro g h
  have h₁ := hc g.newBlock.1 g.newBlock.2.newBlock.1 (newBlock_refers (newBlock_refers h))
  exact termJmp_refers (ht (startBlock_refers h₁ g.newBlock.1)) _

theorem genIfElse_refs (hc : RefsCond ctx cond) (ht : Refs ctx then_)
    (he : Refs ctx else_) : Refs ctx (genIfElse cond then_ else_) := by
  intro g h
  have h₁ := hc g.newBlock.1 g.newBlock.2.newBlock.2.newBlock.1
    (newBlock_refers (newBlock_refers (newBlock_refers h)))
  have h₂ := termJmp_refers (ht (startBlock_refers h₁ g.newBlock.1)) g.newBlock.2.newBlock.1
  exact termJmp_refers (he (startBlock_refers h₂ g.newBlock.2.newBlock.2.newBlock.1)) _

theorem genWhile_refs (hc : RefsCond ctx cond) (hb : Refs ctx body) :
    Refs ctx (genWhile cond body) := by
  intro g h
  have h₁ := termJmp_refers (newBlock_refers (newBlock_refers (newBlock_refers h)))
    g.newBlock.2.newBlock.1
  have hin : ((g.newBlock.2.newBlock.2.newBlock.2.termJmp g.newBlock.2.newBlock.1).pushLoop
      ⟨g.newBlock.2.newBlock.1, g.newBlock.2.newBlock.2.newBlock.1⟩).Refers ctx := h₁
  have h₂ := termJmp_refers (hb (startBlock_refers hin g.newBlock.1)) g.newBlock.2.newBlock.1
  exact hc g.newBlock.1 g.newBlock.2.newBlock.2.newBlock.1 h₂

end Jumps

mutual
/-- **Lowering a statement** writes what refers to what there is. -/
theorem genStmt_refs {S : Sema} (hS : S.NumberedIn ctx) {s : AStmt} (h : s.fits ctx) :
    Refs ctx (genStmt S s) := by
  intro g hg
  match s, h with
  | .block ss, h => exact genStmts_refs hS (l := ss) h hg
  | .empty, _ => exact hg
  | .exprStmt e, h => exact genExpr_refs hS (e := e) h hg
  | .varDecl isConst _ init sym, h =>
    cases isConst with
    | true => exact hg
    | false => exact genVarDecl_refs hS (e := init) h sym hg
  | .assign _ sym value, h => exact genAssign_refs hS sym (e := value) h hg
  | .ifStmt cond then_ none, h =>
    simp only [genStmt]
    split
    · split
      · exact genStmt_refs hS h.2 hg
      · exact hg
    · exact genIf_refs (genCond_refs hS h.1) (genStmt_refs hS h.2) hg
  | .ifStmt cond then_ (some else_), h =>
    simp only [genStmt]
    split
    · split
      · exact genStmt_refs hS h.2.1 hg
      · exact genStmt_refs hS h.2.2 hg
    · exact genIfElse_refs (genCond_refs hS h.1) (genStmt_refs hS h.2.1)
        (genStmt_refs hS h.2.2) hg
  | .whileStmt cond body, h =>
    exact genWhile_refs (genCond_refs hS h.1) (genStmt_refs hS h.2) hg
  | .breakStmt, _ => exact termJmp_refers hg _
  | .continueStmt, _ => exact termJmp_refers hg _
  | .returnStmt (some value), h =>
    exact termRet_refers (genExpr_refs hS (e := value) h hg) (fun _ => rfl) _
  | .returnStmt none, h =>
    have hvoid : ctx.isVoid = true := h
    exact termRet_refers hg (fun hv => Bool.noConfusion (hvoid.symm.trans hv)) _
/-- The same for the statements of a block. -/
theorem genStmts_refs {S : Sema} (hS : S.NumberedIn ctx) {l : List AStmt}
    (h : AStmts.fits ctx l) : Refs ctx (genStmts S l) := by
  match l, h with
  | [], _ => exact fun _ hg => hg
  | s :: ss, h => exact fun _ hg => genStmts_refs hS h.2 (genStmt_refs hS h.1 hg)
end

/-! ### Functions and modules -/

theorem genParams_refs (ps : List (String × SymId)) : RefsVal ctx (genParams ps) := by
  intro g h
  induction ps generalizing g with
  | nil => exact h
  | cons p ps ih => exact ih (g := { g.newVreg.2 with irId := (p.2, g.nextVreg) :: g.irId }) h

/-- **A function of code that fits** refers to what there is, and returns as it should. -/
theorem genFunc_refers {S : Sema} (hS : S.NumberedIn ctx) {fn : AFuncDef}
    (h : fn.body.fits ctx) (hvoid : fn.returnsVoid = true → ctx.isVoid = true) {bb : BasicBlock}
    (hbb : bb ∈ (genFunc S fn).blocks) : Referring ctx bb := by
  have hbody : (genBody S fn (genParams fn.params { curReturnsVoid := fn.returnsVoid }).2).Refers
      ctx := by
    have hparams : (genParams fn.params { curReturnsVoid := fn.returnsVoid }).2.Refers ctx :=
      genParams_refs fn.params (g := { curReturnsVoid := fn.returnsVoid })
        ⟨hvoid, fun _ h => by cases h⟩
    have hs := genStmt_refs hS h (startBlock_refers (newBlock_refers hparams)
      (genParams fn.params { curReturnsVoid := fn.returnsVoid }).2.newBlock.1)
    simp only [genBody]
    split
    · exact hs
    · split
      · rename_i hcur
        exact termRet_refers hs (fun hv => Bool.noConfusion ((hs.1 hcur).symm.trans hv)) _
      · exact termRet_refers hs (fun _ => rfl) _
  obtain ⟨b, hb, rfl⟩ := List.mem_mapIdx.mp hbb
  have hb := hbody.2 _ (List.getElem_mem hb)
  exact ⟨hb.insts, hb.ret⟩

theorem genGlobals_length (S : Sema) (items : List ATopLevel) (globals : List IRGlobal) :
    (genGlobals S items globals).length = globals.length := by
  induction items generalizing globals with
  | nil => rfl
  | cons item items ih =>
    cases item with
    | func fn => exact ih globals
    | global g =>
      simp only [genGlobals]
      split
      · exact ih globals
      · exact (ih _).trans List.length_set

end Refers

/-! ### Modules -/

section Modules

open Sema

variable {m : Module} {m' : AModule} {A : Sema}

/-- **The functions of an accepted module fit**, and the functions they know are its own. -/
theorem analyze_fits (h : analyze m = .ok (m', A)) :
    ∃ known : FuncRef → Prop, (∀ r, known r → ∃ fn, .func fn ∈ m'.items ∧ fn.name = r.name ∧
        fn.params.length = r.arity ∧ fn.returnsVoid = r.returnsVoid) ∧
      ∀ fn, .func fn ∈ m'.items →
        fn.body.fits ⟨A.globalCount, known, fn.returnsVoid || !m.returnsValues⟩ := by
  obtain ⟨regs, S₀, S₁, -, hof, htab, hall, -, -⟩ := analyze_ok h
  -- An analysed function, and that of the source.
  have hfunc : ∀ {i : Nat} {reg : Registered} {fn : AFuncDef}, regs[i]? = some reg →
      Analyzed S₀ S₁ reg (.func fn) → ∃ fn₀, reg = .func fn₀ ∧ fn.name = fn₀.name ∧
        fn.params.length = fn₀.params.length ∧ fn.returnsVoid = fn₀.returnsVoid ∧
        fn.body.fits ⟨A.globalCount, Knows S₀.funcs, fn.returnsVoid || !m.returnsValues⟩ := by
    intro i reg fn hreg hR
    cases hR with
    | @func fn₀ _ S S' hg hfn _ =>
      obtain ⟨hname, hparams, hvoid⟩ := analyzeFunc_shape hfn
      simp only [analyzeFunc, bind_eq_ok, Prod.exists] at hfn
      obtain ⟨body, S₂, hbody, hfn⟩ := hfn
      cases hfn
      have hfuncs := (declareParams_grows S.pushScope fn₀.params).funcs.trans hg.funcs
      refine ⟨fn₀, rfl, hname, hparams, hvoid,
        analyzeStmt_fits (congrArg Knows hfuncs.symm) (fun hv => ?_) hbody⟩
      obtain ⟨hvoid, hvalues⟩ := Bool.or_eq_false_iff.mp hv
      have hmem := List.mem_of_getElem? ((registered_func_iff hof i fn₀).mpr hreg)
      have hall : m.returnsValues = true := by simpa using hvalues
      have hret := List.all_eq_true.mp hall _ hmem
      simp only [show fn₀.returnsVoid = false from hvoid, Bool.false_or] at hret
      exact Bool.not_eq_true' _ ▸ hret
  refine ⟨Knows S₀.funcs, fun r hr => ?_, fun fn hfn => ?_⟩
  · obtain ⟨c, hr⟩ := hr
    obtain ⟨fn₀, hreg, -, hr'⟩ := htab.funcs_sound hr
    rcases forall₂_getElem? hall r.index with ⟨hn, -⟩ | ⟨reg, item, hreg', hitem, hR⟩
    · rw [hn] at hreg
      cases hreg
    · obtain rfl := Option.some.inj (hreg'.symm.trans hreg)
      cases item with
      | global g => cases hR
      | func fn =>
        obtain ⟨fn₁, heq, hname, hparams, hvoid, -⟩ := hfunc hreg' hR
        cases heq
        rw [hr']
        exact ⟨fn, List.mem_of_getElem? hitem, hname, hparams, hvoid⟩
  · obtain ⟨i, hi⟩ := List.mem_iff_getElem?.mp hfn
    rcases forall₂_getElem? hall i with ⟨-, hn⟩ | ⟨reg, item, hreg, hitem, hR⟩
    · rw [hn] at hi
      cases hi
    · obtain rfl := Option.some.inj (hitem.symm.trans hi)
      obtain ⟨-, -, -, -, -, hfits⟩ := hfunc hreg hR
      exact hfits

/-- **The blocks of generated functions** refer to what there is. -/
theorem generate_refers (h : analyze m = .ok (m', A)) :
    ∃ known : FuncRef → Prop, (∀ r, known r → ∃ F ∈ (generate A m').funcs, F.name = r.name ∧
        F.paramRegs.length = r.arity ∧ F.returnsVoid = r.returnsVoid) ∧
      ∀ F ∈ (generate A m').funcs, ∀ bb ∈ F.blocks,
        Referring ⟨A.globalCount, known, F.returnsVoid || !m.returnsValues⟩ bb := by
  obtain ⟨known, hknown, hfits⟩ := analyze_fits h
  refine ⟨known, fun r hr => ?_, fun F hF bb hbb => ?_⟩
  · obtain ⟨fn, hfn, hname, hparams, hvoid⟩ := hknown r hr
    refine ⟨genFunc A fn, mem_genFuncs.mpr ⟨fn, hfn, rfl⟩, hname, ?_, hvoid⟩
    rw [(genFunc_entry A fn).1, genParams_length, hparams]
  · obtain ⟨fn, hfn, rfl⟩ := mem_genFuncs.mp hF
    exact genFunc_refers (fun id hk => (analyze_numbered h).symbol hk) (hfits fn hfn)
      (fun hv => by rw [hv, Bool.true_or]) hbb

/-- **Generated code refers to what there is**: it loads and stores the globals of its module, and
calls its functions with as many arguments as they take, for a value only those that return one. -/
theorem generate_closed (h : analyze m = .ok (m', A)) : (generate A m').Closed := by
  obtain ⟨known, hknown, hrefers⟩ := generate_refers h
  constructor
  · intro F hF inst hi hop
    obtain ⟨bb, hbb, hi⟩ := List.mem_flatMap.mp hi
    show inst.gid < (genGlobals A m'.items (List.replicate A.globalCount {})).length
    rw [genGlobals_length, List.length_replicate]
    exact ((hrefers F hF bb hbb).insts inst hi).globals hop
  · intro F hF inst hi hop
    obtain ⟨bb, hbb, hi⟩ := List.mem_flatMap.mp hi
    obtain ⟨r, hr, hname, hargs, hvoid⟩ := ((hrefers F hF bb hbb).insts inst hi).calls hop
    obtain ⟨G, hG, hname', hparams, hvoid'⟩ := hknown r hr
    exact ⟨G, hG, hname'.trans hname, hparams.trans hargs.symm, fun hd => hvoid'.trans (hvoid hd)⟩

/-- A function that is not `void` returns a value. -/
theorem generate_returnsValue (h : analyze m = .ok (m', A)) (hret : m.returnsValues = true)
    {F : IRFunc} (hF : F ∈ (generate A m').funcs) (hvoid : F.returnsVoid = false) {bb : BasicBlock}
    (hbb : bb ∈ F.blocks) (hterm : bb.term = .Ret) : bb.retHasVal = true := by
  obtain ⟨known, -, hrefers⟩ := generate_refers h
  exact (hrefers F hF bb hbb).ret (by rw [hvoid, hret]; rfl) hterm

end Modules

end IRGen

end ToyC
