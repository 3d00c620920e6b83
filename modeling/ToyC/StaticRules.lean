import ToyC.ConstExpr
import ToyC.SemaItems

/-!
# The static rules, and what the analysis makes of them

The rules of the language, stated on the trees of the parser and without the analyser: names are
declared before they are used, functions have one definition each and are called with as many
arguments as they have parameters, what initialises a global or a constant is a constant that can
be evaluated without dividing by zero, nothing assigns to a constant, `break` and `continue` stand
in loops, and there is an `int main()` (`Module.legal`). Only blocks open scopes, so a declaration
that is itself a branch or the body of a loop is one of the block around it; a body sees all
globals and all functions of the module.

The analysis does not reject a program for breaking any other rule, with one exception. It folds
what can be folded, wherever it stands, and a division whose operands fold is an error when the
divisor is zero, whether or not the program ever gets there. `Module.foldsZeroDivisor` says that
there is such a division, and a legal module is accepted exactly when there is none
(`analyze_legal_iff`).
-/

namespace ToyC

open Sema

/-! ## Constant expressions -/

/-- **The value of a constant expression**, of literals, constants in scope and operators. Nothing
when it is none, or divides by zero where it is evaluated. -/
def constOf (env : Env) : Expr → Option Word
  | .number _ v => some v
  | .var _ x =>
    match env.lookup x with
    | some (.const v) => some v
    | some (.var _) | some (.global _) | none => none
  | .binary _ op lhs rhs => do
    let a ← constOf env lhs
    let b ← constOf env rhs
    if op.divides && b == 0#32 then none else some (op.eval a b)
  | .logical _ isOr lhs rhs => do
    let a ← constOf env lhs
    match shortCircuit isOr a with
    | some v => some v
    | none => do
      let b ← constOf env rhs
      some (Word.ofBool (Word.truthy b))
  | .unary _ op operand => do
    let a ← constOf env operand
    some (op.eval a)
  | .call _ _ _ => none

/-! ## The rules -/

mutual
/-- **Names are in scope and calls fit**, in an expression. -/
def legalExpr (arity : String → Option Nat) (env : Env) : Expr → Bool
  | .number _ _ => true
  | .var _ x => (env.lookup x).isSome
  | .binary _ _ lhs rhs => legalExpr arity env lhs && legalExpr arity env rhs
  | .logical _ _ lhs rhs => legalExpr arity env lhs && legalExpr arity env rhs
  | .unary _ _ operand => legalExpr arity env operand
  | .call _ callee args => arity callee == some args.length && legalArgs arity env args
/-- The same for the arguments of a call. -/
def legalArgs (arity : String → Option Nat) (env : Env) : List Expr → Bool
  | [] => true
  | e :: es => legalExpr arity env e && legalArgs arity env es
end

/-- What a declaration makes of its name. The value of a variable does not matter here. -/
def staticBinding (env : Env) (isConst : Bool) (init : Expr) : Binding :=
  match isConst, constOf env init with
  | true, some v => .const v
  | _, _ => .var 0

/-- **The names after a statement.** -/
def Stmt.declares (env : Env) : Stmt → Env
  | .varDecl _ isConst x init => env.declare x (staticBinding env isConst init)
  | .ifStmt _ _ then_ none => then_.declares env
  | .ifStmt _ _ then_ (some else_) => else_.declares (then_.declares env)
  | .whileStmt _ _ body => body.declares env
  | .block _ _ | .empty _ | .exprStmt _ _ | .assign _ _ _ | .breakStmt _ | .continueStmt _
  | .returnStmt _ _ => env

mutual
/-- **The rules for a statement.** -/
def legalStmt (arity : String → Option Nat) (inLoop : Bool) (env : Env) : Stmt → Bool
  | .block _ ss => legalStmts arity inLoop ([] :: env) ss
  | .empty _ => true
  | .exprStmt _ e => legalExpr arity env e
  | .assign _ x value =>
    (match env.lookup x with
      | some (.var _) | some (.global _) => true
      | some (.const _) | none => false) && legalExpr arity env value
  | .varDecl _ isConst _ init =>
    legalExpr arity env init && (!isConst || (constOf env init).isSome)
  | .ifStmt _ cond then_ none => legalExpr arity env cond && legalStmt arity inLoop env then_
  | .ifStmt _ cond then_ (some else_) =>
    legalExpr arity env cond && legalStmt arity inLoop env then_ &&
      legalStmt arity inLoop (then_.declares env) else_
  | .whileStmt _ cond body => legalExpr arity env cond && legalStmt arity true env body
  | .breakStmt _ | .continueStmt _ => inLoop
  | .returnStmt _ none => true
  | .returnStmt _ (some value) => legalExpr arity env value
/-- The rules for the statements of a block. -/
def legalStmts (arity : String → Option Nat) (inLoop : Bool) (env : Env) : List Stmt → Bool
  | [] => true
  | s :: ss => legalStmt arity inLoop env s && legalStmts arity inLoop (s.declares env) ss
end

/-- The names a body sees: the parameters, and the globals around them. -/
def FuncDef.staticEnv (fn : FuncDef) (env : Env) : Env :=
  fn.params.foldl (fun env p => env.declare p (.var 0)) ([] :: env)

/-- The rules for a function. -/
def FuncDef.legal (arity : String → Option Nat) (env : Env) (fn : FuncDef) : Bool :=
  legalStmt arity false (fn.staticEnv env) fn.bodyStmt

/-- **The rules for the items**, in their order. -/
def legalItems (arities : List (String × Nat)) (env : Env) : List TopLevel → Bool
  | [] => true
  | .global g :: items =>
    legalExpr (fun f => arities.lookup f) env g.init && (constOf env g.init).isSome &&
      legalItems arities (env.declare g.name (staticBinding env g.isConst g.init)) items
  | .func fn :: items =>
    (arities.lookup fn.name).isNone &&
      !(fn.name == "main" && (fn.returnsVoid || !fn.params.isEmpty)) &&
      legalItems ((fn.name, fn.params.length) :: arities) env items

/-- The globals of the items. -/
def itemsEnv (env : Env) : List TopLevel → Env
  | [] => env
  | .global g :: items => itemsEnv (env.declare g.name (staticBinding env g.isConst g.init)) items
  | .func _ :: items => itemsEnv env items

/-- The functions of the items, with the numbers of their parameters. -/
def itemsArities (arities : List (String × Nat)) : List TopLevel → List (String × Nat)
  | [] => arities
  | .global _ :: items => itemsArities arities items
  | .func fn :: items => itemsArities ((fn.name, fn.params.length) :: arities) items

def TopLevel.func? : TopLevel → Option FuncDef
  | .func fn => some fn
  | .global _ => none

namespace Module

/-- The functions of a module. -/
def funcs (m : Module) : List FuncDef := m.items.filterMap TopLevel.func?

/-- The names of a module. -/
def env (m : Module) : Env := itemsEnv [[]] m.items

def arity (m : Module) (f : String) : Option Nat := (itemsArities [] m.items).lookup f

/-- **A module that meets the static rules.** -/
def legal (m : Module) : Bool :=
  legalItems [] [[]] m.items && (m.arity "main").isSome && m.funcs.all (FuncDef.legal m.arity m.env)

end Module

/-! ## Divisions of constants by zero -/

mutual
/-- **A division of constants by zero** stands somewhere in an expression. -/
def foldsZeroDivisor (env : Env) : Expr → Bool
  | .number _ _ | .var _ _ => false
  | .binary _ op lhs rhs =>
    foldsZeroDivisor env lhs || foldsZeroDivisor env rhs ||
      (op.divides && (constOf env lhs).isSome && constOf env rhs == some 0#32)
  | .logical _ _ lhs rhs => foldsZeroDivisor env lhs || foldsZeroDivisor env rhs
  | .unary _ _ operand => foldsZeroDivisor env operand
  | .call _ _ args => argsFoldZeroDivisor env args
/-- The same for the arguments of a call. -/
def argsFoldZeroDivisor (env : Env) : List Expr → Bool
  | [] => false
  | e :: es => foldsZeroDivisor env e || argsFoldZeroDivisor env es
end

mutual
/-- The same for a statement. -/
def stmtFoldsZeroDivisor (env : Env) : Stmt → Bool
  | .block _ ss => stmtsFoldZeroDivisor ([] :: env) ss
  | .empty _ | .breakStmt _ | .continueStmt _ | .returnStmt _ none => false
  | .exprStmt _ e | .assign _ _ e | .varDecl _ _ _ e | .returnStmt _ (some e) =>
    foldsZeroDivisor env e
  | .ifStmt _ cond then_ none => foldsZeroDivisor env cond || stmtFoldsZeroDivisor env then_
  | .ifStmt _ cond then_ (some else_) =>
    foldsZeroDivisor env cond || stmtFoldsZeroDivisor env then_ ||
      stmtFoldsZeroDivisor (then_.declares env) else_
  | .whileStmt _ cond body => foldsZeroDivisor env cond || stmtFoldsZeroDivisor env body
/-- The same for the statements of a block. -/
def stmtsFoldZeroDivisor (env : Env) : List Stmt → Bool
  | [] => false
  | s :: ss => stmtFoldsZeroDivisor env s || stmtsFoldZeroDivisor (s.declares env) ss
end

/-- The same for the initialisers of the globals. -/
def itemsFoldZeroDivisor (env : Env) : List TopLevel → Bool
  | [] => false
  | .global g :: items =>
    foldsZeroDivisor env g.init ||
      itemsFoldZeroDivisor (env.declare g.name (staticBinding env g.isConst g.init)) items
  | .func _ :: items => itemsFoldZeroDivisor env items

/-- **A division of constants by zero** stands somewhere in a module. -/
def Module.foldsZeroDivisor (m : Module) : Bool :=
  itemsFoldZeroDivisor [[]] m.items ||
    m.funcs.any fun fn => stmtFoldsZeroDivisor (fn.staticEnv m.env) fn.bodyStmt

end ToyC
