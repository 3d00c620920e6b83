import Mathlib.Data.List.Forall2
import ToyC.StaticRules

/-!
# The analysis accepts what the rules allow

The analysis of a legal tree succeeds exactly where no division of constants by zero stands in it
(`Accepts`), and then it knows of every name what the rules know of it (`Sees`) and has folded
exactly the constant expressions (`Folded`). Both follow the trees; the errors that are left are
those of the divisions, because every other check of the analysis is one of the rules.
-/

namespace ToyC

open Sema

/-- **A step that succeeds exactly when** a condition holds, with a result that has a property. -/
def Accepts {α : Type} (x : Except String α) (c : Bool) (P : α → Prop) : Prop :=
  (c = true → ∃ a, x = .ok a ∧ P a) ∧ (c = false → ∃ msg, x = .error msg)

namespace Accepts

variable {α β : Type} {x : Except String α} {c c' : Bool} {P Q : α → Prop}

theorem ok {a : α} (h : P a) : Accepts (.ok a) true P :=
  ⟨fun _ => ⟨a, rfl, h⟩, fun h => by cases h⟩

theorem error (msg : String) : Accepts (.error msg : Except String α) false P :=
  ⟨fun h => (by cases h), fun _ => ⟨msg, rfl⟩⟩

/-- Two steps, one after the other. -/
theorem bind {f : α → Except String β} {R : β → Prop} (hx : Accepts x c P)
    (hf : ∀ a, P a → Accepts (f a) c' R) : Accepts (x >>= f) (c && c') R := by
  cases hc : c with
  | false =>
    obtain ⟨msg, rfl⟩ := hx.2 hc
    exact error msg
  | true =>
    obtain ⟨a, rfl, ha⟩ := hx.1 hc
    exact hf a ha

/-- A step and what is made of its result. -/
theorem map {f : α → β} {R : β → Prop} (hx : Accepts x c P) (hf : ∀ a, P a → R (f a)) :
    Accepts (x >>= fun a => .ok (f a)) c R := by
  have h : Accepts (x >>= fun a => .ok (f a)) (c && true) R := hx.bind fun a ha => ok (hf a ha)
  rwa [Bool.and_true] at h

end Accepts

/-! ## What the analysis knows -/

/-- A symbol stands for what the rules say of its name. -/
def EntryAgrees (S : Sema) (p : String × SymId) (q : String × Binding) : Prop :=
  p.1 = q.1 ∧ p.2 < S.arena.length ∧
    match q.2 with
    | .const v => (S.symbol p.2).isConst = true ∧ (S.symbol p.2).constValue = v
    | .var _ | .global _ => (S.symbol p.2).isConst = false

/-- **The tables of the analysis agree with the names in scope** and with the functions. -/
structure Sees (arity : String → Option Nat) (S : Sema) (env : Env) : Prop where
  scopes : List.Forall₂ (List.Forall₂ (EntryAgrees S)) S.scopes env
  funcs : ∀ f, (S.funcs.lookup f).map (·.arity) = arity f

section Sees

variable {arity : String → Option Nat} {S S' : Sema} {env : Env}

theorem EntryAgrees.mono {p : String × SymId} {q : String × Binding} (h : EntryAgrees S p q)
    (harena : ∃ syms, S'.arena = S.arena ++ syms) : EntryAgrees S' p q := by
  obtain ⟨hname, hlt, hsym⟩ := h
  obtain ⟨syms, hsyms⟩ := harena
  have heq : S'.symbol p.2 = S.symbol p.2 := by
    rw [Sema.symbol, Sema.symbol, hsyms, List.getD_eq_getElem?_getD,
      List.getElem?_append_left hlt, ← List.getD_eq_getElem?_getD]
  refine ⟨hname, ?_, ?_⟩
  · rw [hsyms, List.length_append]
    exact Nat.lt_of_lt_of_le hlt (Nat.le_add_right _ _)
  · rw [heq]
    exact hsym

/-- The same names, in tables that have grown. -/
theorem Sees.mono (h : Sees arity S env) (harena : ∃ syms, S'.arena = S.arena ++ syms)
    (hscopes : S'.scopes = S.scopes) (hfuncs : S'.funcs = S.funcs) : Sees arity S' env where
  scopes := by
    rw [hscopes]
    exact h.scopes.imp fun _ _ hs => hs.imp fun _ _ he => he.mono harena
  funcs := by
    rw [hfuncs]
    exact h.funcs

/-- A name in a scope of both. -/
theorem lookup_agrees {scope : Scope} {names : List (String × Binding)}
    (h : List.Forall₂ (EntryAgrees S) scope names) (x : String) :
    (scope.lookup x = none ∧ names.lookup x = none) ∨
      ∃ id b, scope.lookup x = some id ∧ names.lookup x = some b ∧ EntryAgrees S (x, id) (x, b) := by
  induction h with
  | nil => exact .inl ⟨rfl, rfl⟩
  | @cons p q scope names hpq _ ih =>
    obtain ⟨y, id⟩ := p
    obtain ⟨z, b⟩ := q
    obtain rfl : y = z := hpq.1
    rw [List.lookup_cons, List.lookup_cons]
    cases hxy : x == y with
    | true =>
      obtain rfl := eq_of_beq hxy
      exact .inr ⟨id, b, rfl, rfl, hpq⟩
    | false => exact ih

/-- **A name** stands for nothing on both sides, or for the same. -/
theorem Sees.lookup (h : Sees arity S env) (x : String) :
    (S.lookup x = none ∧ env.lookup x = none) ∨
      ∃ id b, S.lookup x = some id ∧ env.lookup x = some b ∧ EntryAgrees S (x, id) (x, b) := by
  have hscopes := h.scopes
  clear h
  unfold Sema.lookup Env.lookup
  generalize S.scopes = scopes at hscopes ⊢
  induction hscopes with
  | nil => exact .inl ⟨rfl, rfl⟩
  | cons hscope _ ih =>
    rw [List.findSome?_cons, List.findSome?_cons]
    rcases lookup_agrees hscope x with ⟨hx, hx'⟩ | ⟨id, b, hx, hx', hag⟩
    · rw [hx, hx']
      exact ih
    · rw [hx, hx']
      exact .inr ⟨id, b, rfl, rfl, hag⟩

theorem Sees.pushScope (h : Sees arity S env) : Sees arity S.pushScope ([] :: env) :=
  ⟨.cons .nil (h.scopes.imp fun _ _ hs => hs.imp fun _ _ he =>
    he.mono ⟨[], (List.append_nil _).symm⟩), h.funcs⟩

/-- A declaration on both sides. -/
theorem Sees.declare (h : Sees arity S env) (sym : Symbol) (b : Binding)
    (hb : match b with
      | .const v => sym.isConst = true ∧ sym.constValue = v
      | .var _ | .global _ => sym.isConst = false) :
    Sees arity (S.declare sym).2 (env.declare sym.name b) where
  scopes := by
    have harena : ∃ syms, (S.declare sym).2.arena = S.arena ++ syms := ⟨[sym], rfl⟩
    have hold := h.scopes.imp fun _ _ hs => hs.imp fun _ _ he => EntryAgrees.mono he harena
    have hsym : (S.declare sym).2.symbol S.arena.length = sym := by
      simp [Sema.symbol, Sema.declare]
    have hentry : EntryAgrees (S.declare sym).2 (sym.name, S.arena.length) (sym.name, b) := by
      refine ⟨rfl, by simp [Sema.declare], ?_⟩
      rw [hsym]
      exact hb
    cases hs : S.scopes with
    | nil =>
      have hnew : (S.declare sym).2.scopes = [] := by simp [Sema.declare, hs]
      rw [hs] at hold
      rw [hnew]
      cases hold
      exact .nil
    | cons scope outer =>
      have hnew : (S.declare sym).2.scopes = ((sym.name, S.arena.length) :: scope) :: outer := by
        simp [Sema.declare, hs]
      rw [hs] at hold
      rw [hnew]
      cases hold with
      | cons hscope hrest => exact .cons (.cons hentry hscope) hrest
  funcs := h.funcs

theorem Sees.popScope {scope : List (String × Binding)} (h : Sees arity S (scope :: env)) :
    Sees arity S.popScope env := by
  obtain ⟨hscopes, hfuncs⟩ := h
  refine ⟨?_, hfuncs⟩
  show List.Forall₂ _ S.scopes.tail env
  cases hs : S.scopes with
  | nil =>
    rw [hs] at hscopes
    cases hscopes
  | cons _ _ =>
    rw [hs] at hscopes
    cases hscopes with
    | cons _ hrest =>
      exact hrest.imp fun _ _ hs => hs.imp fun _ _ he => he.mono ⟨[], (List.append_nil _).symm⟩

end Sees

/-! ## Expressions -/

/-- **What was folded** is what the rules call a constant expression, with its value. -/
def Folded (env : Env) (e : Expr) (e' : AExpr) : Prop :=
  constOf env e = if e'.isConst then some e'.constValue else none

/-- Folding a binary operator fails on a division by zero only. -/
theorem evalBin_eq_if (op : BinOp) (a b : Word) :
    evalBin op a b = if op.divides && b == 0#32 then none else some (op.eval a b) := by
  cases hv : evalBin op a b with
  | some v =>
    have h := Permits.eval_of_evalBin (p := .none) hv
    unfold Permits.eval at h
    split at h
    · cases h
    · rename_i hzero
      rw [if_neg (by simpa [Permits.none] using hzero), evalBin_eq hv]
  | none =>
    cases op with
    | Div | Mod =>
      simp only [evalBin] at hv
      split at hv
      · rename_i hb
        simp [BinOp.divides, hb]
      · split at hv <;> cases hv
    | _ => cases hv

section Exprs

variable {arity : String → Option Nat} {S : Sema} {env : Env}

mutual
/-- **A legal expression** is accepted when no division of constants by zero stands in it. -/
theorem analyzeExpr_accepts (h : Sees arity S env) :
    ∀ e : Expr, legalExpr arity env e = true →
      Accepts (analyzeExpr S e) (!foldsZeroDivisor env e) (Folded env e)
  | .number _ v, _ => .ok rfl
  | .var line x, hlegal => by
    simp only [analyzeExpr, foldsZeroDivisor]
    rcases h.lookup x with ⟨-, hx⟩ | ⟨id, b, hx, hx', -, -, hsym⟩
    · simp [legalExpr, hx] at hlegal
    · rw [hx]
      refine .ok ?_
      unfold Folded
      cases b with
      | const v =>
        simp [constOf, hx', AExpr.isConst, AExpr.constValue, AExpr.note, hsym.1, hsym.2, Note.const]
      | var _ | global _ =>
        simp [constOf, hx', AExpr.isConst, AExpr.note, show (S.symbol id).isConst = false from hsym]
  | .binary line op lhs rhs, hlegal => by
    rw [legalExpr, Bool.and_eq_true] at hlegal
    simp only [analyzeExpr, foldsZeroDivisor, Bool.not_or, Bool.and_assoc]
    refine (analyzeExpr_accepts h lhs hlegal.1).bind fun lhs' hl => ?_
    refine (analyzeExpr_accepts h rhs hlegal.2).bind fun rhs' hr => ?_
    unfold Folded at hl hr
    cases hlc : lhs'.isConst with
    | false =>
      simp only [hlc, Bool.false_eq_true, if_false] at hl
      simp only [hl, Option.isSome_none, Bool.and_false, Bool.false_and, Bool.not_false,
        Bool.false_eq_true, if_false]
      exact .ok (by simp [Folded, constOf, hl, AExpr.isConst, AExpr.note])
    | true =>
      simp only [hlc, if_true] at hl
      cases hrc : rhs'.isConst with
      | false =>
        simp only [hrc, Bool.false_eq_true, if_false] at hr
        have hnot : (constOf env rhs == some 0#32) = false := by
          rw [hr]
          rfl
        simp only [hnot, Bool.and_false, Bool.not_false, Bool.false_eq_true, if_false]
        exact .ok (by simp [Folded, constOf, hl, hr, AExpr.isConst, AExpr.note])
      | true =>
        simp only [hrc, if_true] at hr
        have hdiv : (op.divides && ((constOf env lhs).isSome && constOf env rhs == some 0#32)) =
            (op.divides && rhs'.constValue == 0#32) := by
          rw [hl, hr]
          rfl
        simp only [Bool.and_self, if_true, evalBin_eq_if, hdiv]
        cases hzero : op.divides && rhs'.constValue == 0#32 with
        | true =>
          simp only [if_true]
          exact .error _
        | false =>
          simp only [Bool.false_eq_true, if_false]
          refine .ok ?_
          unfold Folded
          rw [constOf, hl, hr]
          simp only [Option.bind_eq_bind, Option.bind_some, hzero, Bool.false_eq_true, if_false]
          rfl
  | .logical line isOr lhs rhs, hlegal => by
    rw [legalExpr, Bool.and_eq_true] at hlegal
    simp only [analyzeExpr, foldsZeroDivisor, Bool.not_or]
    refine (analyzeExpr_accepts h lhs hlegal.1).bind fun lhs' hl => ?_
    refine (analyzeExpr_accepts h rhs hlegal.2).map fun rhs' hr => ?_
    unfold Folded at hl hr ⊢
    rw [constOf, hl]
    cases hlc : lhs'.isConst with
    | false => simp [AExpr.isConst, AExpr.note]
    | true =>
      simp only [if_true, Option.bind_eq_bind, Option.bind_some, shortCircuit, hr]
      generalize lhs'.constValue = a
      cases isOr <;> by_cases ha : a = 0#32 <;> cases rhs'.isConst <;>
        simp [ha, Word.truthy, Word.ofBool, AExpr.isConst, AExpr.constValue, AExpr.note, Note.const]
  | .unary line op operand, hlegal => by
    simp only [analyzeExpr, foldsZeroDivisor]
    refine (analyzeExpr_accepts h operand hlegal).map fun operand' ho => ?_
    unfold Folded at ho ⊢
    rw [constOf, ho]
    cases hk : operand'.isConst with
    | false => simp [AExpr.isConst, AExpr.note]
    | true =>
      simp [AExpr.isConst, AExpr.constValue, AExpr.note, Note.const, evalUn_eq]
  | .call line callee args, hlegal => by
    rw [legalExpr, Bool.and_eq_true] at hlegal
    have harity := eq_of_beq hlegal.1
    rw [← h.funcs] at harity
    obtain ⟨target, htarget, hlen⟩ := Option.map_eq_some_iff.mp harity
    simp only [analyzeExpr, foldsZeroDivisor, htarget, hlen, ne_eq, not_true_eq_false, if_false]
    exact (analyzeArgs_accepts h args hlegal.2).map fun args' _ => rfl
/-- The same for the arguments of a call. -/
theorem analyzeArgs_accepts (h : Sees arity S env) :
    ∀ es : List Expr, legalArgs arity env es = true →
      Accepts (analyzeArgs S es) (!argsFoldZeroDivisor env es) fun _ => True
  | [], _ => .ok trivial
  | e :: es, hlegal => by
    rw [legalArgs, Bool.and_eq_true] at hlegal
    simp only [analyzeArgs, argsFoldZeroDivisor, Bool.not_or]
    refine (analyzeExpr_accepts h e hlegal.1).bind fun e' _ => ?_
    exact (analyzeArgs_accepts h es hlegal.2).map fun es' _ => trivial
end

end Exprs

/-! ## Statements -/

/-- What is known after a statement. -/
structure SeesAfter (arity : String → Option Nat) (S : Sema) (env : Env) (S' : Sema) : Prop
    extends Sees arity S' env where
  loopDepth : S'.loopDepth = S.loopDepth

section Stmts

variable {arity : String → Option Nat} {S : Sema} {env : Env}

theorem analyzeAssign_accepts (h : Sees arity S env) (line : Nat) (x : String) (value : Expr)
    {inLoop : Bool} (hlegal : legalStmt arity inLoop env (.assign line x value) = true) :
    Accepts (analyzeAssign S line x value) (!foldsZeroDivisor env value) fun _ => True := by
  rw [legalStmt, Bool.and_eq_true] at hlegal
  obtain ⟨hname, hvalue⟩ := hlegal
  unfold analyzeAssign
  rcases h.lookup x with ⟨-, hx⟩ | ⟨id, b, hx, hx', -, -, hsym⟩
  · simp [hx] at hname
  · have hconst : (S.symbol id).isConst = false := by
      rw [hx'] at hname
      cases b with
      | const v => cases hname
      | var _ | global _ => exact hsym
    simp only [hx, hconst, Bool.false_eq_true, if_false]
    exact (analyzeExpr_accepts h value hvalue).map fun _ _ => trivial

theorem analyzeVarDecl_accepts (h : Sees arity S env) (line : Nat) (isConst : Bool) (x : String)
    (init : Expr) {inLoop : Bool}
    (hlegal : legalStmt arity inLoop env (.varDecl line isConst x init) = true) :
    Accepts (analyzeVarDecl S line isConst x init) (!foldsZeroDivisor env init) fun r =>
      SeesAfter arity S (env.declare x (staticBinding env isConst init)) r.2 := by
  rw [legalStmt, Bool.and_eq_true] at hlegal
  have hinit := analyzeExpr_accepts h init hlegal.1
  rw [← Bool.and_true (!foldsZeroDivisor env init)]
  refine hinit.bind fun init' hfold => ?_
  unfold Folded at hfold
  cases isConst with
  | false =>
    simp only [Bool.false_eq_true, if_false]
    exact .ok ⟨h.declare { kind := .LocalVar, name := x } _ rfl, rfl⟩
  | true =>
    have hsome : (constOf env init).isSome = true := by simpa using hlegal.2
    cases hc : init'.isConst with
    | false =>
      simp only [hc, Bool.false_eq_true, if_false] at hfold
      rw [hfold] at hsome
      cases hsome
    | true =>
      simp only [hc, if_true] at hfold
      simp only [if_true, Bool.not_true, Bool.false_eq_true, if_false]
      refine .ok ⟨?_, rfl⟩
      unfold staticBinding
      rw [hfold]
      exact h.declare
        { kind := .Const, name := x, isConst := true, constValue := init'.constValue }
        (.const init'.constValue) ⟨rfl, rfl⟩

/-- Declarations are entered in the innermost scope. -/
theorem Stmt.declares_cons {env : Env} :
    ∀ (s : Stmt) (scope : List (String × Binding)),
      ∃ scope', s.declares (scope :: env) = scope' :: env
  | .varDecl _ _ _ _, scope => ⟨_, rfl⟩
  | .ifStmt _ _ then_ none, scope => declares_cons then_ scope
  | .ifStmt _ _ then_ (some else_), scope => by
    obtain ⟨scope₁, h₁⟩ := declares_cons then_ scope
    rw [Stmt.declares, h₁]
    exact declares_cons else_ scope₁
  | .whileStmt _ _ body, scope => declares_cons body scope
  | .block _ _, scope | .empty _, scope | .exprStmt _ _, scope | .assign _ _ _, scope
  | .breakStmt _, scope | .continueStmt _, scope | .returnStmt _ _, scope => ⟨scope, rfl⟩

/-- A `break` or a `continue` in a loop. -/
theorem break_accepts {s' : AStmt} (h : Sees arity S env) (line : Nat) (msg : String)
    (hloop : S.loopDepth ≠ 0) :
    Accepts (if S.loopDepth = 0 then error line msg else .ok (s', S)) true fun r =>
      SeesAfter arity S env r.2 := by
  rw [if_neg hloop]
  exact .ok ⟨h, rfl⟩

mutual
/-- **A legal statement** is accepted when no division of constants by zero stands in it, and
leaves the names that the rules say. -/
theorem analyzeStmt_accepts {S : Sema} {env : Env} {inLoop : Bool} (h : Sees arity S env)
    (hloop : inLoop = true → S.loopDepth ≠ 0) :
    ∀ s : Stmt, legalStmt arity inLoop env s = true →
      Accepts (analyzeStmt S s) (!stmtFoldsZeroDivisor env s) fun r =>
        SeesAfter arity S (s.declares env) r.2
  | .block _ ss, hlegal => by
    rw [legalStmt] at hlegal
    simp only [analyzeStmt, stmtFoldsZeroDivisor]
    refine (analyzeStmts_accepts h.pushScope (by exact hloop) ss hlegal).map fun r hr => ?_
    obtain ⟨env', hsees⟩ := hr
    exact ⟨hsees.toSees.popScope, hsees.loopDepth⟩
  | .empty _, _ => .ok ⟨h, rfl⟩
  | .exprStmt _ e, hlegal =>
    (analyzeExpr_accepts h e hlegal).map fun _ _ => ⟨h, rfl⟩
  | .assign line x value, hlegal =>
    (analyzeAssign_accepts h line x value hlegal).map fun _ _ => ⟨h, rfl⟩
  | .varDecl line isConst x init, hlegal => analyzeVarDecl_accepts h line isConst x init hlegal
  | .ifStmt _ cond then_ none, hlegal => by
    rw [legalStmt, Bool.and_eq_true] at hlegal
    simp only [analyzeStmt, stmtFoldsZeroDivisor, Bool.not_or]
    refine (analyzeExpr_accepts h cond hlegal.1).bind fun cond' _ => ?_
    exact (analyzeStmt_accepts h hloop then_ hlegal.2).map fun r hr => hr
  | .ifStmt _ cond then_ (some else_), hlegal => by
    rw [legalStmt, Bool.and_eq_true, Bool.and_eq_true] at hlegal
    obtain ⟨⟨hcond, hthen⟩, helse⟩ := hlegal
    simp only [analyzeStmt, stmtFoldsZeroDivisor, Bool.not_or, Bool.and_assoc]
    refine (analyzeExpr_accepts h cond hcond).bind fun cond' _ => ?_
    refine (analyzeStmt_accepts h hloop then_ hthen).bind fun r hr => ?_
    refine (analyzeStmt_accepts hr.toSees ?_ else_ helse).map fun r' hr' => ?_
    · rw [hr.loopDepth]
      exact hloop
    · exact ⟨hr'.toSees, hr'.loopDepth.trans hr.loopDepth⟩
  | .whileStmt _ cond body, hlegal => by
    rw [legalStmt, Bool.and_eq_true] at hlegal
    simp only [analyzeStmt, stmtFoldsZeroDivisor, Bool.not_or]
    refine (analyzeExpr_accepts h cond hlegal.1).bind fun cond' _ => ?_
    have hin : Sees arity { S with loopDepth := S.loopDepth + 1 } env :=
      h.mono ⟨[], (List.append_nil _).symm⟩ rfl rfl
    refine (analyzeStmt_accepts hin (fun _ => Nat.succ_ne_zero _) body hlegal.2).map fun r hr => ?_
    exact ⟨hr.toSees.mono ⟨[], (List.append_nil _).symm⟩ rfl rfl,
      congrArg (· - 1) hr.loopDepth⟩
  | .breakStmt line, hlegal => break_accepts h line _ (hloop hlegal)
  | .continueStmt line, hlegal => break_accepts h line _ (hloop hlegal)
  | .returnStmt _ none, _ => .ok ⟨h, rfl⟩
  | .returnStmt _ (some value), hlegal =>
    (analyzeExpr_accepts h value hlegal).map fun _ _ => ⟨h, rfl⟩
/-- The same for the statements of a block. -/
theorem analyzeStmts_accepts {S : Sema} {scope : List (String × Binding)} {env : Env}
    {inLoop : Bool} (h : Sees arity S (scope :: env)) (hloop : inLoop = true → S.loopDepth ≠ 0) :
    ∀ ss : List Stmt, legalStmts arity inLoop (scope :: env) ss = true →
      Accepts (analyzeStmts S ss) (!stmtsFoldZeroDivisor (scope :: env) ss) fun r =>
        ∃ scope', SeesAfter arity S (scope' :: env) r.2
  | [], _ => .ok ⟨scope, h, rfl⟩
  | s :: ss, hlegal => by
    rw [legalStmts, Bool.and_eq_true] at hlegal
    simp only [analyzeStmts, stmtsFoldZeroDivisor, Bool.not_or]
    refine (analyzeStmt_accepts h hloop s hlegal.1).bind fun r hr => ?_
    obtain ⟨scope₁, hscope⟩ := s.declares_cons scope
    rw [hscope] at hlegal hr ⊢
    refine (analyzeStmts_accepts hr.toSees ?_ ss hlegal.2).map fun r' hr' => ?_
    · rw [hr.loopDepth]
      exact hloop
    · obtain ⟨scope₂, hr'⟩ := hr'
      exact ⟨scope₂, hr'.toSees, hr'.loopDepth.trans hr.loopDepth⟩
end

end Stmts

/-! ## Functions and items -/

section Items

variable {arity : String → Option Nat} {S : Sema} {env : Env}

theorem declareParams_sees (ps : List String) :
    ∀ {S : Sema} {env : Env}, Sees arity S env →
      Sees arity (declareParams S ps).2 (ps.foldl (fun env p => env.declare p (.var 0)) env) := by
  induction ps with
  | nil => exact fun h => h
  | cons p ps ih => exact fun h => ih (h.declare { kind := .Param, name := p } (.var 0) rfl)

theorem staticEnv_cons (fn : FuncDef) (env : Env) : ∃ scope, fn.staticEnv env = scope :: env := by
  unfold FuncDef.staticEnv
  generalize [] = scope
  induction fn.params generalizing scope with
  | nil => exact ⟨scope, rfl⟩
  | cons p ps ih => exact ih _

/-- **A legal function.** -/
theorem analyzeFunc_accepts (h : Sees arity S env) {fn : FuncDef} (hlegal : fn.legal arity env = true) :
    Accepts (analyzeFunc S fn) (!stmtFoldsZeroDivisor (fn.staticEnv env) fn.bodyStmt) fun r =>
      Sees arity r.2 env := by
  have hparams : Sees arity (declareParams S.pushScope fn.params).2 (fn.staticEnv env) :=
    declareParams_sees fn.params h.pushScope
  simp only [analyzeFunc]
  refine (analyzeStmt_accepts hparams (fun h => by cases h) fn.bodyStmt hlegal).map fun r hr => ?_
  obtain ⟨scope, hscope⟩ := staticEnv_cons fn env
  have hsees := hr.toSees
  rw [show fn.bodyStmt.declares (fn.staticEnv env) = fn.staticEnv env from rfl, hscope] at hsees
  exact hsees.popScope

def Registered.func? : Registered → Option FuncDef
  | .func fn => some fn
  | .global _ => none

/-- **The bodies of legal functions.** -/
theorem analyzeBodies_accepts {regs : List Registered} :
    ∀ {S : Sema}, Sees arity S env →
      (regs.filterMap Registered.func?).all (FuncDef.legal arity env) = true →
      Accepts (analyzeBodies S regs)
        (!(regs.filterMap Registered.func?).any fun fn =>
          stmtFoldsZeroDivisor (fn.staticEnv env) fn.bodyStmt) fun _ => True := by
  induction regs with
  | nil => exact fun _ _ => .ok trivial
  | cons reg regs ih =>
    intro S h hlegal
    cases reg with
    | global g => exact (ih h hlegal).map fun _ _ => trivial
    | func fn =>
      rw [show (Registered.func fn :: regs).filterMap Registered.func? =
        fn :: regs.filterMap Registered.func? from rfl] at hlegal ⊢
      rw [List.all_cons, Bool.and_eq_true] at hlegal
      rw [List.any_cons, Bool.not_or]
      refine (analyzeFunc_accepts h hlegal.1).bind fun r hr => ?_
      exact (ih hr hlegal.2).map fun _ _ => trivial

/-- **A global whose initialiser is a constant expression.** -/
theorem analyzeGlobal_accepts (h : Sees arity S env) {g : GlobalVar}
    (hinit : legalExpr arity env g.init = true) (hconst : (constOf env g.init).isSome = true) :
    Accepts (analyzeGlobal S g) (!foldsZeroDivisor env g.init) fun r =>
      Sees arity r.2 (env.declare g.name (staticBinding env g.isConst g.init)) := by
  simp only [analyzeGlobal]
  rw [← Bool.and_true (!foldsZeroDivisor env g.init)]
  refine (analyzeExpr_accepts h g.init hinit).bind fun init' hfold => ?_
  unfold Folded at hfold
  cases hc : init'.isConst with
  | false =>
    simp only [hc, Bool.false_eq_true, if_false] at hfold
    rw [hfold] at hconst
    cases hconst
  | true =>
    simp only [hc, if_true] at hfold
    simp only [Bool.not_true, Bool.false_eq_true, if_false]
    refine .ok ?_
    unfold staticBinding
    rw [hfold]
    cases g.isConst with
    | true =>
      exact h.declare
        { kind := .Const, name := g.name, isConst := true, constValue := init'.constValue }
        (.const init'.constValue) ⟨rfl, rfl⟩
    | false =>
      have hcount : Sees arity { S with globalCount := S.globalCount + 1 } env :=
        h.mono ⟨[], (List.append_nil _).symm⟩ rfl rfl
      exact hcount.declare { kind := .GlobalVar, name := g.name, globalId := some S.globalCount }
        (.var 0) rfl

/-- **Legal items are registered.** -/
theorem registerItems_accepts {items : List TopLevel} :
    ∀ {arities : List (String × Nat)} {S : Sema} {env : Env} {index : Nat},
      Sees (fun f => arities.lookup f) S env → legalItems arities env items = true →
      Accepts (registerItems S index items) (!itemsFoldZeroDivisor env items) fun r =>
        Sees (fun f => (itemsArities arities items).lookup f) r.2 (itemsEnv env items) ∧
          r.1.filterMap Registered.func? = items.filterMap TopLevel.func? := by
  induction items with
  | nil => exact fun h _ => .ok ⟨h, rfl⟩
  | cons item items ih =>
    intro arities S env index h hlegal
    cases item with
    | global g =>
      rw [legalItems, Bool.and_eq_true, Bool.and_eq_true] at hlegal
      obtain ⟨⟨hinit, hconst⟩, hitems⟩ := hlegal
      simp only [registerItems, itemsFoldZeroDivisor, Bool.not_or]
      refine (analyzeGlobal_accepts h hinit hconst).bind fun r hr => ?_
      exact (ih hr hitems).map fun r' hr' => hr'
    | func fn =>
      rw [legalItems, Bool.and_eq_true, Bool.and_eq_true] at hlegal
      obtain ⟨⟨hnew, hmain⟩, hitems⟩ := hlegal
      have hfuncs : (S.funcs.lookup fn.name).isSome = false := by
        have hf := h.funcs fn.name
        rw [Option.isNone_iff_eq_none.mp hnew] at hf
        rw [Option.map_eq_none_iff.mp hf]
        rfl
      have hmain : ¬(fn.name = "main" ∧ (fn.returnsVoid = true ∨ fn.params ≠ [])) := by
        rintro ⟨hname, hvoid | hparams⟩
        · simp [hname, hvoid] at hmain
        · simp [hname, hparams] at hmain
      simp only [registerItems, itemsFoldZeroDivisor, registerFunc, hfuncs, Bool.false_eq_true,
        if_false, if_neg hmain, ok_bind]
      have hrest := @ih ((fn.name, fn.params.length) :: arities)
      refine (hrest ?_ hitems).map fun r hr => ?_
      · refine ⟨h.scopes.imp fun _ _ hs => hs.imp fun _ _ he =>
          he.mono ⟨[], (List.append_nil _).symm⟩, fun f => ?_⟩
        rw [List.lookup_cons, List.lookup_cons]
        cases f == fn.name with
        | true => rfl
        | false => exact h.funcs f
      · exact ⟨hr.1, congrArg (fn :: ·) hr.2⟩

end Items

/-- **When a legal program is accepted**: exactly when no division of constants by zero stands
anywhere in it, evaluated or not. -/
theorem analyze_legal_iff {m : Module} (h : m.legal = true) :
    (∃ r, analyze m = .ok r) ↔ m.foldsZeroDivisor = false := by
  rw [Module.legal, Bool.and_eq_true, Bool.and_eq_true] at h
  obtain ⟨⟨hitems, hmain⟩, hfuncs⟩ := h
  have hstart : Sees (fun f => ([] : List (String × Nat)).lookup f) ({} : Sema).pushScope [[]] :=
    ⟨.cons .nil .nil, fun _ => rfl⟩
  have haccepts : Accepts (analyze m) (!m.foldsZeroDivisor) fun _ => True := by
    unfold analyze Module.foldsZeroDivisor
    rw [Bool.not_or]
    refine (registerItems_accepts hstart hitems).bind fun r hr => ?_
    obtain ⟨hsees, hregs⟩ := hr
    have hsome : (r.2.funcs.lookup "main").isNone = false := by
      have hf := hsees.funcs "main"
      cases hl : r.2.funcs.lookup "main" with
      | some target => rfl
      | none =>
        rw [hl] at hf
        rw [Module.arity, ← hf] at hmain
        cases hmain
    simp only [hsome, Bool.false_eq_true, if_false]
    rw [Module.funcs, ← hregs] at hfuncs ⊢
    exact (analyzeBodies_accepts hsees hfuncs).map fun _ _ => trivial
  cases hc : m.foldsZeroDivisor with
  | false =>
    obtain ⟨r, hr, -⟩ := haccepts.1 (by rw [hc]; rfl)
    exact iff_of_true ⟨r, hr⟩ rfl
  | true =>
    obtain ⟨msg, hmsg⟩ := haccepts.2 (by rw [hc]; rfl)
    refine iff_of_false ?_ Bool.noConfusion
    rintro ⟨r, hr⟩
    rw [hmsg] at hr
    cases hr

/-! ## A division that is never reached -/

/-- `int main() { if (0) return 1 / 0; return 0; }` -/
def deadDivision : Module where
  items := [.func { name := "main", body :=
    [.ifStmt 1 (.number 1 0)
        (.returnStmt 1 (some (.binary 1 .Div (.number 1 1) (.number 1 0)))) none,
      .returnStmt 1 (some (.number 1 0))] }]

/-- It is legal, runs without a division by zero and returns, and is rejected. -/
theorem deadDivision_rejected :
    deadDivision.legal = true ∧
      (∀ k, deadDivision.watchedCall .noZeroDivisors (k + 1)
        ⟨"main", [], deadDivision.initialGlobals⟩ = .ok (some 0, deadDivision.initialGlobals)) ∧
      deadDivision.Returns ⟨"main", [], deadDivision.initialGlobals⟩
        (some 0, deadDivision.initialGlobals) ∧
      analyze deadDivision =
        .error "semantic error at line 1: division by zero in constant expression" := by
  have hwatched : ∀ k, deadDivision.watchedCall .noZeroDivisors (k + 1)
      ⟨"main", [], deadDivision.initialGlobals⟩ = .ok (some 0, deadDivision.initialGlobals) :=
    fun _ => rfl
  exact ⟨by decide, hwatched, ⟨1, Module.watched_values _ _ _ _ _ (hwatched 0)⟩, by rfl⟩

/-- It is rejected because of the division. -/
theorem analyze_legal_deadDivision :
    ¬∃ r, analyze deadDivision = .ok r := by
  rw [analyze_legal_iff (m := deadDivision) (by decide)]
  decide

end ToyC
