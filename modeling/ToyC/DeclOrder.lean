import Mathlib.Logic.Relation
import ToyC.SemaItems

/-!
# Declaration order

What the analysis makes of the order in which the items of a module stand. The
first pass enters every global and every function before the second pass looks
at a body, so a body may name what is declared after it; resolution itself never
consults the order. `Module.NoForwardReference` says of a module, before any
analysis, that no function names a later item. On accepted modules it is exactly
the condition under which every reference in a body points backwards
(`analyze_declaredBeforeUse_iff`), and with it the calls between different
functions form no cycle.
-/

namespace ToyC

/-! ## What a tree mentions -/

mutual
/-- The variables an expression names. -/
def Expr.names : Expr → List String
  | .number _ _ => []
  | .var _ name => [name]
  | .binary _ _ lhs rhs | .logical _ _ lhs rhs => lhs.names ++ rhs.names
  | .unary _ _ operand => operand.names
  | .call _ _ args => Exprs.names args
/-- The same for the arguments of a call. -/
def Exprs.names : List Expr → List String
  | [] => []
  | e :: es => e.names ++ Exprs.names es
end

mutual
/-- The functions an expression calls. -/
def Expr.callees : Expr → List String
  | .number _ _ | .var _ _ => []
  | .binary _ _ lhs rhs | .logical _ _ lhs rhs => lhs.callees ++ rhs.callees
  | .unary _ _ operand => operand.callees
  | .call _ callee args => callee :: Exprs.callees args
/-- The same for the arguments of a call. -/
def Exprs.callees : List Expr → List String
  | [] => []
  | e :: es => e.callees ++ Exprs.callees es
end

mutual
/-- The symbols an analysed expression names. -/
def AExpr.syms : AExpr → List SymId
  | .number _ _ => []
  | .var _ _ sym => [sym]
  | .binary _ _ lhs rhs | .logical _ _ lhs rhs => lhs.syms ++ rhs.syms
  | .unary _ _ operand => operand.syms
  | .call _ _ args _ => AExprs.syms args
/-- The same for the arguments of a call. -/
def AExprs.syms : List AExpr → List SymId
  | [] => []
  | e :: es => e.syms ++ AExprs.syms es
end

mutual
/-- The functions an analysed expression calls. -/
def AExpr.targets : AExpr → List FuncRef
  | .number _ _ | .var _ _ _ => []
  | .binary _ _ lhs rhs | .logical _ _ lhs rhs => lhs.targets ++ rhs.targets
  | .unary _ _ operand => operand.targets
  | .call _ _ args target => target :: AExprs.targets args
/-- The same for the arguments of a call. -/
def AExprs.targets : List AExpr → List FuncRef
  | [] => []
  | e :: es => e.targets ++ AExprs.targets es
end

/-- The names of a list that are not bound around it. -/
def freeIn (bound : List String) (names : List String) : List String :=
  names.filter fun x => x ∉ bound

mutual
/-- The variables a statement reads or assigns that neither the statement itself
nor its surroundings (`bound`) declare. -/
def Stmt.free (bound : List String) : Stmt → List String
  | .block _ ss => Stmts.free bound ss
  | .exprStmt _ e => freeIn bound e.names
  | .assign _ name value => freeIn bound (name :: value.names)
  | .varDecl _ _ _ init => freeIn bound init.names
  | .ifStmt _ cond then_ none => freeIn bound cond.names ++ then_.free bound
  | .ifStmt _ cond then_ (some else_) =>
    freeIn bound cond.names ++ (then_.free bound ++ else_.free (then_.binds ++ bound))
  | .whileStmt _ cond body => freeIn bound cond.names ++ body.free bound
  | .returnStmt _ (some value) => freeIn bound value.names
  | .returnStmt _ none | .empty _ | .breakStmt _ | .continueStmt _ => []
/-- The same for the statements of a block, each in the scope of those before. -/
def Stmts.free (bound : List String) : List Stmt → List String
  | [] => []
  | s :: ss => s.free bound ++ Stmts.free (s.binds ++ bound) ss
end

mutual
/-- The functions a statement calls. -/
def Stmt.callees : Stmt → List String
  | .block _ ss => Stmts.callees ss
  | .exprStmt _ e => e.callees
  | .assign _ _ value => value.callees
  | .varDecl _ _ _ init => init.callees
  | .ifStmt _ cond then_ none => cond.callees ++ then_.callees
  | .ifStmt _ cond then_ (some else_) => cond.callees ++ (then_.callees ++ else_.callees)
  | .whileStmt _ cond body => cond.callees ++ body.callees
  | .returnStmt _ (some value) => value.callees
  | .returnStmt _ none | .empty _ | .breakStmt _ | .continueStmt _ => []
/-- The same for the statements of a block. -/
def Stmts.callees : List Stmt → List String
  | [] => []
  | s :: ss => s.callees ++ Stmts.callees ss
end

mutual
/-- The symbols an analysed statement reads or assigns. -/
def AStmt.syms : AStmt → List SymId
  | .block ss => AStmts.syms ss
  | .exprStmt e => e.syms
  | .assign _ sym value => sym :: value.syms
  | .varDecl _ _ init _ => init.syms
  | .ifStmt cond then_ none => cond.syms ++ then_.syms
  | .ifStmt cond then_ (some else_) => cond.syms ++ (then_.syms ++ else_.syms)
  | .whileStmt cond body => cond.syms ++ body.syms
  | .returnStmt (some value) => value.syms
  | .returnStmt none | .empty | .breakStmt | .continueStmt => []
/-- The same for the statements of a block. -/
def AStmts.syms : List AStmt → List SymId
  | [] => []
  | s :: ss => s.syms ++ AStmts.syms ss
end

mutual
/-- The functions an analysed statement calls. -/
def AStmt.targets : AStmt → List FuncRef
  | .block ss => AStmts.targets ss
  | .exprStmt e => e.targets
  | .assign _ _ value => value.targets
  | .varDecl _ _ init _ => init.targets
  | .ifStmt cond then_ none => cond.targets ++ then_.targets
  | .ifStmt cond then_ (some else_) => cond.targets ++ (then_.targets ++ else_.targets)
  | .whileStmt cond body => cond.targets ++ body.targets
  | .returnStmt (some value) => value.targets
  | .returnStmt none | .empty | .breakStmt | .continueStmt => []
/-- The same for the statements of a block. -/
def AStmts.targets : List AStmt → List FuncRef
  | [] => []
  | s :: ss => s.targets ++ AStmts.targets ss
end

/-! ## The properties of a module -/

/-- **Every reference in a function body points backwards**: a call to the
function itself or an earlier one, a global to an earlier item. -/
def AModule.DeclaredBeforeUse (m : AModule) : Prop :=
  ∀ (i : Nat) (fn : AFuncDef), m.items[i]? = some (.func fn) →
    (∀ r ∈ fn.body.targets, r.index ≤ i) ∧
    ∀ (j : Nat) (g : AGlobalVar), m.items[j]? = some (.global g) →
      g.sym ∈ fn.body.syms → j < i

/-- One function calls another one. -/
def AModule.CallsOther (m : AModule) (i j : Nat) : Prop :=
  i ≠ j ∧ ∃ (fn : AFuncDef) (r : FuncRef),
    m.items[i]? = some (.func fn) ∧ r ∈ fn.body.targets ∧ r.index = j

/-- **The call graph without self-loops is acyclic.** -/
def AModule.AcyclicCalls (m : AModule) : Prop :=
  ∀ i, ¬ Relation.TransGen m.CallsOther i i

/-- **No function names a later item**, as a global or as a callee. -/
def Module.NoForwardReference (m : Module) : Prop :=
  ∀ (i : Nat) (fn : FuncDef), m.items[i]? = some (.func fn) → ∀ j, i < j →
    (∀ g : GlobalVar, m.items[j]? = some (.global g) →
      g.name ∉ fn.bodyStmt.free fn.params) ∧
    ∀ fn' : FuncDef, m.items[j]? = some (.func fn') → fn'.name ∉ fn.bodyStmt.callees

/-- Backward references only close no cycle. -/
theorem AModule.DeclaredBeforeUse.acyclicCalls {m : AModule} (h : m.DeclaredBeforeUse) :
    m.AcyclicCalls := by
  have hlt : ∀ {i j}, Relation.TransGen m.CallsOther i j → j < i := by
    intro i j hij
    induction hij with
    | single hstep =>
      obtain ⟨hne, fn, r, hfn, hr, rfl⟩ := hstep
      exact Nat.lt_of_le_of_ne ((h _ fn hfn).1 r hr) (Ne.symm hne)
    | tail _ hstep ih =>
      obtain ⟨hne, fn, r, hfn, hr, rfl⟩ := hstep
      exact Nat.lt_of_le_of_lt ((h _ fn hfn).1 r hr) ih
  exact fun i hcycle => Nat.lt_irrefl i (hlt hcycle)

namespace Sema

/-! ## What resolution makes of the names -/

/-- The symbols and the calls of an analysed expression are what its names and
its callees resolve to. -/
structure Resolves (S : Sema) (names callees : List String) (syms : List SymId)
    (targets : List FuncRef) : Prop where
  syms : syms.map some = names.map S.lookup
  targets : targets.map some = callees.map (S.funcs.lookup ·)

theorem Resolves.nil (S : Sema) : Resolves S [] [] [] [] := ⟨rfl, rfl⟩

theorem Resolves.append {S : Sema} {names₁ names₂ callees₁ callees₂ : List String}
    {syms₁ syms₂ : List SymId} {targets₁ targets₂ : List FuncRef}
    (h₁ : Resolves S names₁ callees₁ syms₁ targets₁)
    (h₂ : Resolves S names₂ callees₂ syms₂ targets₂) :
    Resolves S (names₁ ++ names₂) (callees₁ ++ callees₂) (syms₁ ++ syms₂)
      (targets₁ ++ targets₂) where
  syms := by rw [List.map_append, List.map_append, h₁.syms, h₂.syms]
  targets := by rw [List.map_append, List.map_append, h₁.targets, h₂.targets]

mutual
/-- **What analysing an expression resolves.** -/
theorem analyzeExpr_resolves {S : Sema} {e : Expr} {e' : AExpr}
    (h : analyzeExpr S e = .ok e') : Resolves S e.names e.callees e'.syms e'.targets := by
  match e with
  | .number _ _ =>
    cases h
    exact .nil S
  | .var _ name =>
    simp only [analyzeExpr] at h
    split at h
    · cases h
    · rename_i id hid
      cases h
      exact ⟨by simp [AExpr.syms, Expr.names, hid], rfl⟩
  | .binary _ _ lhs rhs =>
    simp only [analyzeExpr, bind_eq_ok] at h
    obtain ⟨lhs', hl, rhs', hr, h⟩ := h
    have hres := (analyzeExpr_resolves hl).append (analyzeExpr_resolves hr)
    split at h
    · split at h
      · cases h
      · cases h
        exact hres
    · cases h
      exact hres
  | .logical _ _ lhs rhs =>
    simp only [analyzeExpr, bind_eq_ok] at h
    obtain ⟨lhs', hl, rhs', hr, h⟩ := h
    cases h
    exact (analyzeExpr_resolves hl).append (analyzeExpr_resolves hr)
  | .unary _ _ operand =>
    simp only [analyzeExpr, bind_eq_ok] at h
    obtain ⟨operand', ho, h⟩ := h
    cases h
    have hres := analyzeExpr_resolves ho
    exact ⟨hres.syms, hres.targets⟩
  | .call _ callee args =>
    simp only [analyzeExpr] at h
    split at h
    · cases h
    · rename_i target htarget
      split at h
      · cases h
      · simp only [bind_eq_ok] at h
        obtain ⟨args', ha, h⟩ := h
        cases h
        have hargs := analyzeArgs_resolves ha
        refine ⟨hargs.syms, ?_⟩
        rw [AExpr.targets, Expr.callees, List.map_cons, List.map_cons, hargs.targets, htarget]
/-- The same for the arguments of a call. -/
theorem analyzeArgs_resolves {S : Sema} {es : List Expr} {es' : List AExpr}
    (h : analyzeArgs S es = .ok es') :
    Resolves S (Exprs.names es) (Exprs.callees es) (AExprs.syms es')
      (AExprs.targets es') := by
  match es with
  | [] =>
    cases h
    exact .nil S
  | e :: es =>
    simp only [analyzeArgs, bind_eq_ok] at h
    obtain ⟨e', he, es', hes, h⟩ := h
    cases h
    exact (analyzeExpr_resolves he).append (analyzeArgs_resolves hes)
end

/-! ## Bodies under complete tables -/

/-- The tables inside a body: the functions of the complete tables `S₀`, and for
names its globals except where a local of the body, newer than any global, hides
them. -/
structure Inside (S₀ : Sema) (bound : List String) (S : Sema) : Prop where
  funcs : S.funcs = S₀.funcs
  scopes : S.scopes ≠ []
  arena : S₀.arena.length ≤ S.arena.length
  locals : ∀ x ∈ bound, ∃ id, S.lookup x = some id ∧ S₀.arena.length ≤ id
  globals : ∀ x, x ∉ bound → S.lookup x = S₀.lookup x

theorem Inside.grows {S₀ S S' : Sema} {bound names : List String} (h : Inside S₀ bound S)
    (hg : Grows S names S') : Inside S₀ (names ++ bound) S' where
  funcs := hg.funcs.trans h.funcs
  scopes := hg.scopes_ne_nil h.scopes
  arena := Nat.le_trans h.arena hg.length_le
  locals x hx := by
    rcases hg.lookup h.scopes x with ⟨-, id, hid, hlo, -⟩ | ⟨hx', heq⟩
    · exact ⟨id, hid, Nat.le_trans h.arena hlo⟩
    · rw [heq]
      exact h.locals x ((List.mem_append.mp hx).resolve_left hx')
  globals x hx := by
    rw [List.mem_append, not_or] at hx
    rcases hg.lookup h.scopes x with ⟨hx', -⟩ | ⟨-, heq⟩
    · exact absurd hx' hx.1
    · rw [heq]
      exact h.globals x hx.2

theorem Inside.pushScope {S₀ S : Sema} {bound : List String} (h : Inside S₀ bound S) :
    Inside S₀ bound S.pushScope :=
  ⟨h.funcs, List.cons_ne_nil _ _, h.arena, h.locals, h.globals⟩

/-- **What an analysed tree refers to**: the globals its free names resolve to, and
the functions its callees resolve to. -/
structure Refers (S₀ : Sema) (free callees : List String) (syms : List SymId)
    (targets : List FuncRef) : Prop where
  globals : ∀ id < S₀.arena.length, id ∈ syms ↔ ∃ x ∈ free, S₀.lookup x = some id
  targets : targets.map some = callees.map (S₀.funcs.lookup ·)

theorem Refers.nil (S₀ : Sema) : Refers S₀ [] [] [] [] := ⟨by simp, rfl⟩

theorem Refers.append {S₀ : Sema} {free₁ free₂ callees₁ callees₂ : List String}
    {syms₁ syms₂ : List SymId} {targets₁ targets₂ : List FuncRef}
    (h₁ : Refers S₀ free₁ callees₁ syms₁ targets₁)
    (h₂ : Refers S₀ free₂ callees₂ syms₂ targets₂) :
    Refers S₀ (free₁ ++ free₂) (callees₁ ++ callees₂) (syms₁ ++ syms₂)
      (targets₁ ++ targets₂) where
  globals id hid := by
    simp only [List.mem_append, h₁.globals id hid, h₂.globals id hid, or_and_right, exists_or]
  targets := by rw [List.map_append, List.map_append, h₁.targets, h₂.targets]

theorem Refers.mem_targets {S₀ : Sema} {free callees : List String} {syms : List SymId}
    {targets : List FuncRef} (h : Refers S₀ free callees syms targets) (r : FuncRef) :
    r ∈ targets ↔ ∃ c ∈ callees, S₀.funcs.lookup c = some r := by
  have hmap : r ∈ targets ↔ some r ∈ targets.map some := by simp
  rw [hmap, h.targets, List.mem_map]

/-- What a list of names resolved inside a body refers to. -/
theorem Resolves.refers {S₀ S : Sema} {bound names callees : List String}
    {syms : List SymId} {targets : List FuncRef}
    (h : Resolves S names callees syms targets) (hin : Inside S₀ bound S) :
    Refers S₀ (freeIn bound names) callees syms targets := by
  refine ⟨fun id hid => ?_, by rw [h.targets, hin.funcs]⟩
  have hmem : id ∈ syms ↔ ∃ x ∈ names, S.lookup x = some id := by
    have : id ∈ syms ↔ some id ∈ syms.map some := by simp
    rw [this, h.syms, List.mem_map]
  rw [hmem]
  constructor
  · rintro ⟨x, hx, hlook⟩
    have hb : x ∉ bound := by
      intro hb
      obtain ⟨id', hid', hle⟩ := hin.locals x hb
      rw [hlook] at hid'
      cases hid'
      exact Nat.not_lt.mpr hle hid
    exact ⟨x, List.mem_filter.mpr ⟨hx, by simpa using hb⟩, by rw [← hin.globals x hb, hlook]⟩
  · rintro ⟨x, hx, hlook⟩
    obtain ⟨hx, hb⟩ := List.mem_filter.mp hx
    exact ⟨x, hx, by rw [hin.globals x (by simpa using hb), hlook]⟩

mutual
/-- **What analysing a statement refers to.** -/
theorem analyzeStmt_refers {S₀ S S' : Sema} {bound : List String} {s : Stmt} {s' : AStmt}
    (hin : Inside S₀ bound S) (h : analyzeStmt S s = .ok (s', S')) :
    Refers S₀ (s.free bound) s.callees s'.syms s'.targets := by
  match s with
  | .block _ ss =>
    simp only [analyzeStmt, bind_eq_ok, Prod.exists] at h
    obtain ⟨ss', S₁, hss, h⟩ := h
    cases h
    exact analyzeStmts_refers hin.pushScope hss
  | .empty _ =>
    cases h
    exact .nil S₀
  | .exprStmt _ e =>
    simp only [analyzeStmt, bind_eq_ok] at h
    obtain ⟨e', he, h⟩ := h
    cases h
    exact (analyzeExpr_resolves he).refers hin
  | .assign line name value =>
    simp only [analyzeStmt, bind_eq_ok] at h
    obtain ⟨s₁, hs₁, h⟩ := h
    cases h
    unfold analyzeAssign at hs₁
    split at hs₁
    · cases hs₁
    · rename_i id hid
      split at hs₁
      · cases hs₁
      · simp only [bind_eq_ok] at hs₁
        obtain ⟨value', hvalue, hs₁⟩ := hs₁
        cases hs₁
        have hres := analyzeExpr_resolves hvalue
        refine Resolves.refers ⟨?_, hres.targets⟩ hin
        show some id :: value'.syms.map some = S.lookup name :: value.names.map S.lookup
        rw [hid, hres.syms]
  | .varDecl line isConst name init =>
    simp only [analyzeStmt, analyzeVarDecl, bind_eq_ok] at h
    obtain ⟨init', hinit, h⟩ := h
    have hres := (analyzeExpr_resolves hinit).refers hin
    split at h
    · split at h
      · cases h
      · cases h
        exact hres
    · cases h
      exact hres
  | .ifStmt _ cond then_ none =>
    simp only [analyzeStmt, bind_eq_ok, Prod.exists] at h
    obtain ⟨cond', hcond, then', S₁, hthen, h⟩ := h
    cases h
    exact ((analyzeExpr_resolves hcond).refers hin).append (analyzeStmt_refers hin hthen)
  | .ifStmt _ cond then_ (some else_) =>
    simp only [analyzeStmt, bind_eq_ok, Prod.exists] at h
    obtain ⟨cond', hcond, then', S₁, hthen, else', S₂, helse, h⟩ := h
    cases h
    exact ((analyzeExpr_resolves hcond).refers hin).append
      ((analyzeStmt_refers hin hthen).append
        (analyzeStmt_refers (hin.grows (analyzeStmt_grows hthen)) helse))
  | .whileStmt _ cond body =>
    simp only [analyzeStmt, bind_eq_ok, Prod.exists] at h
    obtain ⟨cond', hcond, body', S₁, hbody, h⟩ := h
    cases h
    have hin' : Inside S₀ bound { S with loopDepth := S.loopDepth + 1 } :=
      ⟨hin.funcs, hin.scopes, hin.arena, hin.locals, hin.globals⟩
    exact ((analyzeExpr_resolves hcond).refers hin).append (analyzeStmt_refers hin' hbody)
  | .breakStmt line | .continueStmt line =>
    simp only [analyzeStmt] at h
    split at h
    · cases h
    · cases h
      exact .nil S₀
  | .returnStmt _ none =>
    cases h
    exact .nil S₀
  | .returnStmt _ (some value) =>
    simp only [analyzeStmt, bind_eq_ok] at h
    obtain ⟨value', hvalue, h⟩ := h
    cases h
    exact (analyzeExpr_resolves hvalue).refers hin
/-- The same for the statements of a block. -/
theorem analyzeStmts_refers {S₀ S S' : Sema} {bound : List String} {ss : List Stmt}
    {ss' : List AStmt} (hin : Inside S₀ bound S)
    (h : analyzeStmts S ss = .ok (ss', S')) :
    Refers S₀ (Stmts.free bound ss) (Stmts.callees ss) (AStmts.syms ss')
      (AStmts.targets ss') := by
  match ss with
  | [] =>
    cases h
    exact .nil S₀
  | s :: ss =>
    simp only [analyzeStmts, bind_eq_ok, Prod.exists] at h
    obtain ⟨s', S₁, hs, ss', S₂, hss, h⟩ := h
    cases h
    exact (analyzeStmt_refers hin hs).append
      (analyzeStmts_refers (hin.grows (analyzeStmt_grows hs)) hss)
end

/-- **What the body of an analysed function refers to**, the tables being those of
the complete module. -/
theorem analyzeFunc_refers {S₀ S S' : Sema} {fn : FuncDef} {fn' : AFuncDef}
    (hne : S₀.scopes ≠ []) (hg : Grows S₀ [] S)
    (h : analyzeFunc S fn = .ok (fn', S')) :
    Refers S₀ (fn.bodyStmt.free fn.params) fn.bodyStmt.callees fn'.body.syms
      fn'.body.targets := by
  simp only [analyzeFunc, bind_eq_ok, Prod.exists] at h
  obtain ⟨body, S₁, hbody, h⟩ := h
  cases h
  have hin₀ : Inside S₀ [] S₀ :=
    ⟨rfl, hne, Nat.le_refl _, by simp, fun _ _ => rfl⟩
  have hin := (hin₀.grows hg).pushScope.grows (declareParams_grows S.pushScope fn.params)
  have hmem : ∀ x, x ∈ fn.params.reverse ++ ([] ++ []) ↔ x ∈ fn.params := by simp
  exact analyzeStmt_refers
    ⟨hin.funcs, hin.scopes, hin.arena, fun x hx => hin.locals x ((hmem x).mpr hx),
      fun x hx => hin.globals x fun h => hx ((hmem x).mp h)⟩ hbody

/-! ## Accepted modules -/

/-- The second pass keeps the globals. -/
theorem analyzed_global_iff {S₀ S₁ : Sema} {regs : List Registered} {items : List ATopLevel}
    (h : List.Forall₂ (Analyzed S₀ S₁) regs items) (i : Nat) (g : AGlobalVar) :
    items[i]? = some (.global g) ↔ regs[i]? = some (.global g) := by
  rcases forall₂_getElem? h i with ⟨hn, hn'⟩ | ⟨reg, item, hreg, hitem, hR⟩
  · simp [hn, hn']
  · rw [hitem, hreg]
    cases hR <;> simp

/-- The second pass turns a function into one with the references of its source
body, and nothing else into a function. -/
theorem analyzed_func {S₀ S₁ : Sema} {regs : List Registered} {items : List ATopLevel}
    (hne : S₀.scopes ≠ []) (h : List.Forall₂ (Analyzed S₀ S₁) regs items) (i : Nat) :
    (∃ fn fn', regs[i]? = some (.func fn) ∧ items[i]? = some (.func fn') ∧
        Refers S₀ (fn.bodyStmt.free fn.params) fn.bodyStmt.callees fn'.body.syms
          fn'.body.targets) ∨
      ∀ fn fn', regs[i]? ≠ some (.func fn) ∧ items[i]? ≠ some (.func fn') := by
  rcases forall₂_getElem? h i with ⟨hn, hn'⟩ | ⟨reg, item, hreg, hitem, hR⟩
  · exact .inr fun fn fn' => by simp [hn, hn']
  · rw [hitem, hreg]
    cases hR with
    | global g => exact .inr fun fn fn' => by simp
    | func hgrows hbody _ =>
      exact .inl ⟨_, _, rfl, rfl, analyzeFunc_refers hne hgrows hbody⟩

/-- **Declaration before use, exactly.** The references of an accepted module all
point backwards, and its calls form no cycle, if and only if no function of the
source names a later item. -/
theorem analyze_declaredBeforeUse_iff {m : Module} {m' : AModule} {S' : Sema}
    (h : analyze m = .ok (m', S')) :
    m'.DeclaredBeforeUse ∧ m'.AcyclicCalls ↔ m.NoForwardReference := by
  obtain ⟨regs, S₀, S₁, -, hof, htab, hall, -, -⟩ := analyze_ok h
  have hne : S₀.scopes ≠ [] := by
    obtain ⟨scope, hs⟩ := htab.scopes
    simp [hs]
  constructor
  · rintro ⟨hback, -⟩ i fn hi j hij
    have hreg := (registered_func_iff hof i fn).mp hi
    rcases analyzed_func hne hall i with ⟨fn₁, fn', hreg₁, hi', hrefs⟩ | hnone
    · rw [hreg] at hreg₁
      cases hreg₁
      obtain ⟨htargets, hsyms⟩ := hback i fn' hi'
      constructor
      · intro g hj hfree
        obtain ⟨g', hreg', hname⟩ := (registered_global_iff hof j g.name).mp ⟨g, hj, rfl⟩
        obtain ⟨k, g₁, hjk, hk, hlook⟩ := htab.lookup_last hreg'
        rw [hname] at hlook
        have hmem := (hrefs.globals _ (htab.sym_lt hk)).mpr ⟨_, hfree, hlook⟩
        have hki := hsyms k g₁ ((analyzed_global_iff hall k g₁).mpr hk) hmem
        omega
      · intro fn₁ hj hcall
        obtain ⟨r, hr, rfl⟩ := htab.funcs_complete ((registered_func_iff hof j fn₁).mp hj)
        have hle := htargets r ((hrefs.mem_targets r).mpr ⟨_, hcall, hr⟩)
        omega
    · exact absurd hreg (hnone fn default).1
  · intro hno
    have hback : m'.DeclaredBeforeUse := by
      intro i fn' hi'
      rcases analyzed_func hne hall i with ⟨fn, fn₁, hreg, hi₁, hrefs⟩ | hnone
      · rw [hi'] at hi₁
        cases hi₁
        have hlater := hno i fn ((registered_func_iff hof i fn).mpr hreg)
        constructor
        · intro r hr
          obtain ⟨c, hc, hlook⟩ := (hrefs.mem_targets r).mp hr
          obtain ⟨fn₂, hreg₂, rfl, -⟩ := htab.funcs_sound hlook
          by_contra hlt
          exact (hlater r.index (by omega)).2 fn₂
            ((registered_func_iff hof r.index fn₂).mpr hreg₂) hc
        · intro j g' hj hmem
          have hregj := (analyzed_global_iff hall j g').mp hj
          obtain ⟨x, hx, hlook⟩ := (hrefs.globals _ (htab.sym_lt hregj)).mp hmem
          obtain ⟨k, g₁, hk, hsym, rfl⟩ := htab.lookup_sound hlook
          cases htab.sym_inj hk hregj hsym
          obtain ⟨g, hg, hname⟩ := (registered_global_iff hof j g₁.name).mpr ⟨g₁, hk, rfl⟩
          by_contra hlt
          rcases Nat.lt_or_eq_of_le (Nat.le_of_not_lt hlt) with hij | rfl
          · rw [← hname] at hx
            exact (hlater j hij).1 g hg hx
          · rw [hreg] at hregj
            cases hregj
      · exact absurd hi' (hnone default fn').2
    exact ⟨hback, hback.acyclicCalls⟩

/-- A recursive function between the constant it names and its caller. -/
def backwardModule : Module where
  items := [
    .global { isConst := true, name := "zero", init := .number 1 0 },
    .func { name := "even", params := ["n"], body :=
      [.ifStmt 3 (.binary 3 .Eq (.var 3 "n") (.var 3 "zero"))
          (.returnStmt 3 (some (.number 3 1))) none,
        .returnStmt 4 (some (.unary 4 .Not
          (.call 4 "even" [.binary 4 .Sub (.var 4 "n") (.number 4 1)])))] },
    .func { name := "main", body := [.returnStmt 6 (some (.call 6 "even" [.number 6 4]))] }]

theorem backwardModule_noForwardReference : backwardModule.NoForwardReference := by
  intro i fn hi j hij
  match i, j with
  | 0, _ => cases hi
  | 1, 2 =>
    cases hi
    exact ⟨fun g hg => (by cases hg), fun fn' hfn' => by cases hfn'; decide⟩
  | 1, j + 3 | 2, j + 3 => exact ⟨fun g hg => (by cases hg), fun fn' hfn' => by cases hfn'⟩
  | i + 3, _ => cases hi

/-- The module is accepted, and its references point backwards. -/
theorem backwardModule_accepted :
    ∃ m' S, analyze backwardModule = .ok (m', S) ∧ m'.DeclaredBeforeUse ∧ m'.AcyclicCalls :=
  ⟨_, _, rfl, (analyze_declaredBeforeUse_iff rfl).mpr backwardModule_noForwardReference⟩

/-- Two functions that call each other and name a constant declared last. -/
def forwardModule : Module where
  items := [
    .func { name := "even", params := ["n"], body :=
      [.ifStmt 2 (.binary 2 .Eq (.var 2 "n") (.var 2 "zero"))
          (.returnStmt 2 (some (.number 2 1))) none,
        .returnStmt 3 (some (.call 3 "odd" [.binary 3 .Sub (.var 3 "n") (.number 3 1)]))] },
    .func { name := "odd", params := ["n"], body :=
      [.ifStmt 6 (.binary 6 .Eq (.var 6 "n") (.var 6 "zero"))
          (.returnStmt 6 (some (.number 6 0))) none,
        .returnStmt 7 (some (.call 7 "even" [.binary 7 .Sub (.var 7 "n") (.number 7 1)]))] },
    .func { name := "main", body := [.returnStmt 9 (some (.call 9 "even" [.number 9 4]))] },
    .global { isConst := true, name := "zero", init := .number 10 0 }]

/-- The analysis accepts the module all the same: a call points forward, a
constant is named before it is declared, and the two functions form a cycle. -/
theorem forwardModule_accepted :
    ∃ m' S, analyze forwardModule = .ok (m', S) ∧ ¬ m'.DeclaredBeforeUse ∧
      ¬ m'.AcyclicCalls := by
  refine ⟨_, _, rfl, ?_, ?_⟩
  · intro h
    exact absurd ((h 0 _ rfl).1 ⟨1, "odd", false, 1⟩ (by decide)) (by decide)
  · intro h
    exact h 0 (.tail
      (.single (b := 1) ⟨by decide, _, ⟨1, "odd", false, 1⟩, rfl, by decide, rfl⟩)
      ⟨by decide, _, ⟨0, "even", false, 1⟩, rfl, by decide, rfl⟩)

end Sema

end ToyC
