import ToyC.AST
import ToyC.Lib.Outcome

/-!
# Semantic analysis

Scope-based name resolution, constant folding and the well-formedness checks,
as the source performs them: a first pass over the items registers the globals
and the functions, a second one analyses the function bodies in source order.

The analyser's tables are threaded explicitly. A scope is an association list
with the newest declaration first, which looks up as the hash map of the source
does after the same declarations; the scope stack has its innermost scope first.
Symbols are only ever added to the arena, so a position in it is as stable as
the pointer it stands for. The field `irId` of a symbol belongs to the generation
of the intermediate code and is kept there.
-/

namespace ToyC

/-- The kinds of symbol. -/
inductive SymKind where
  | GlobalVar | LocalVar | Param | Const
  deriving DecidableEq, Repr, Inhabited

/-- A symbol: what a name stands for. -/
structure Symbol where
  kind : SymKind := .LocalVar
  name : String := ""
  isConst : Bool := false
  constValue : Word := 0
  globalId : Option Nat := none
  deriving DecidableEq, Repr, Inhabited

/-- A scope, newest declaration first. -/
abbrev Scope := List (String × SymId)

/-- **The tables of the analysis.** -/
structure Sema where
  arena : List Symbol := []
  scopes : List Scope := []
  funcs : List (String × FuncRef) := []
  globalCount : Nat := 0
  loopDepth : Nat := 0
  deriving Repr, Inhabited

/-! ## Constant arithmetic -/

/-- A binary operator on two constants; nothing when the divisor is zero. -/
def evalBin (op : BinOp) (a b : Word) : Option Word :=
  match op with
  | .Add => some (a + b)
  | .Sub => some (a - b)
  | .Mul => some (a * b)
  | .Div =>
    if b = 0#32 then none
    else if a = Word.intMin ∧ b = -1 then some Word.intMin
    else some (a.sdiv b)
  | .Mod =>
    if b = 0#32 then none
    else if a = Word.intMin ∧ b = -1 then some 0#32
    else some (a.srem b)
  | .Lt => some (Word.ofBool (a.slt b))
  | .Gt => some (Word.ofBool (b.slt a))
  | .Le => some (Word.ofBool (!b.slt a))
  | .Ge => some (Word.ofBool (!a.slt b))
  | .Eq => some (Word.ofBool (a == b))
  | .Ne => some (Word.ofBool (a != b))

/-- A unary operator on a constant. -/
def evalUn (op : UnOp) (a : Word) : Word :=
  match op with
  | .Plus => a
  | .Neg => -a
  | .Not => if a = 0#32 then 1#32 else 0#32

namespace Sema

/-- Fail with a message at a line. -/
def error {α : Type} (line : Nat) (msg : String) : Except String α :=
  .error ("semantic error at line " ++ toString line ++ ": " ++ msg)

/-- The symbol at a position of the arena. -/
def symbol (S : Sema) (id : SymId) : Symbol := S.arena.getD id {}

/-- Add a symbol to the arena and declare its name in the innermost scope. -/
def declare (S : Sema) (sym : Symbol) : SymId × Sema :=
  let id := S.arena.length
  let scopes := match S.scopes with
    | [] => []
    | scope :: outer => ((sym.name, id) :: scope) :: outer
  (id, { S with arena := S.arena ++ [sym], scopes })

/-- Resolve a name, innermost scope first. -/
def lookup (S : Sema) (name : String) : Option SymId :=
  S.scopes.findSome? fun scope => scope.lookup name

/-- Enter a scope. -/
def pushScope (S : Sema) : Sema := { S with scopes := [] :: S.scopes }

/-- Leave the innermost scope. -/
def popScope (S : Sema) : Sema := { S with scopes := S.scopes.tail }

/-! ## Expressions -/

mutual
/-- **Analyse an expression**: resolve its names and fold it. -/
def analyzeExpr (S : Sema) : Expr → Except String AExpr
  | .number _ v => .ok (.number (.const v) v)
  | .var line name =>
    match S.lookup name with
    | none => error line ("use of undeclared identifier '" ++ name ++ "'")
    | some id =>
      let sym := S.symbol id
      .ok (.var (if sym.isConst then .const sym.constValue else {}) name id)
  | .binary line op lhs rhs => do
    let lhs ← analyzeExpr S lhs
    let rhs ← analyzeExpr S rhs
    if lhs.isConst && rhs.isConst then
      match evalBin op lhs.constValue rhs.constValue with
      | none => error line "division by zero in constant expression"
      | some v => .ok (.binary (.const v) op lhs rhs)
    else .ok (.binary {} op lhs rhs)
  | .logical _ isOr lhs rhs => do
    let lhs ← analyzeExpr S lhs
    let rhs ← analyzeExpr S rhs
    let note : Note :=
      if lhs.isConst then
        let lv := lhs.constValue
        if isOr && lv != 0#32 then .const 1#32
        else if !isOr && lv == 0#32 then .const 0#32
        else if rhs.isConst then .const (if rhs.constValue != 0#32 then 1#32 else 0#32)
        else {}
      else {}
    .ok (.logical note isOr lhs rhs)
  | .unary _ op operand => do
    let operand ← analyzeExpr S operand
    let note : Note :=
      if operand.isConst then .const (evalUn op operand.constValue) else {}
    .ok (.unary note op operand)
  | .call line callee args =>
    match S.funcs.lookup callee with
    | none => error line ("call to undeclared function '" ++ callee ++ "'")
    | some target =>
      if args.length ≠ target.arity then
        error line ("function '" ++ callee ++ "' expects " ++ toString target.arity
          ++ " argument(s)")
      else do
        let args ← analyzeArgs S args
        .ok (.call {} callee args target)
/-- Analyse the arguments of a call, left to right. -/
def analyzeArgs (S : Sema) : List Expr → Except String (List AExpr)
  | [] => .ok []
  | e :: es => do
    let e ← analyzeExpr S e
    let es ← analyzeArgs S es
    .ok (e :: es)
end

/-! ## Statements -/

/-- Analyse an assignment. -/
def analyzeAssign (S : Sema) (line : Nat) (name : String) (value : Expr) :
    Except String AStmt :=
  match S.lookup name with
  | none => error line ("use of undeclared identifier '" ++ name ++ "'")
  | some id =>
    if (S.symbol id).isConst then
      error line ("cannot assign to constant '" ++ name ++ "'")
    else do
      let value ← analyzeExpr S value
      .ok (.assign name id value)

/-- Analyse a local declaration: the initialiser before the name is declared. -/
def analyzeVarDecl (S : Sema) (line : Nat) (isConst : Bool) (name : String)
    (init : Expr) : Except String (AStmt × Sema) := do
  let init ← analyzeExpr S init
  if isConst then
    if !init.isConst then
      error line ("initializer of constant '" ++ name ++ "' is not a constant expression")
    else
      let (id, S) := S.declare
        { kind := .Const, name, isConst := true, constValue := init.constValue }
      .ok (.varDecl true name init id, S)
  else
    let (id, S) := S.declare { kind := .LocalVar, name }
    .ok (.varDecl false name init id, S)

mutual
/-- **Analyse a statement.** A declaration is entered in the innermost scope. -/
def analyzeStmt (S : Sema) : Stmt → Except String (AStmt × Sema)
  | .block _ stmts => do
    let (stmts, S) ← analyzeStmts S.pushScope stmts
    .ok (.block stmts, S.popScope)
  | .empty _ => .ok (.empty, S)
  | .exprStmt _ e => do
    let e ← analyzeExpr S e
    .ok (.exprStmt e, S)
  | .assign line name value => do
    let s ← analyzeAssign S line name value
    .ok (s, S)
  | .varDecl line isConst name init => analyzeVarDecl S line isConst name init
  | .ifStmt _ cond then_ none => do
    let cond ← analyzeExpr S cond
    let (then_, S) ← analyzeStmt S then_
    .ok (.ifStmt cond then_ none, S)
  | .ifStmt _ cond then_ (some else_) => do
    let cond ← analyzeExpr S cond
    let (then_, S) ← analyzeStmt S then_
    let (else_, S) ← analyzeStmt S else_
    .ok (.ifStmt cond then_ (some else_), S)
  | .whileStmt _ cond body => do
    let cond ← analyzeExpr S cond
    let (body, S) ← analyzeStmt { S with loopDepth := S.loopDepth + 1 } body
    .ok (.whileStmt cond body, { S with loopDepth := S.loopDepth - 1 })
  | .breakStmt line =>
    if S.loopDepth = 0 then error line "'break' outside of a loop" else .ok (.breakStmt, S)
  | .continueStmt line =>
    if S.loopDepth = 0 then error line "'continue' outside of a loop"
    else .ok (.continueStmt, S)
  | .returnStmt _ none => .ok (.returnStmt none, S)
  | .returnStmt _ (some value) => do
    let value ← analyzeExpr S value
    .ok (.returnStmt (some value), S)
/-- Analyse the statements of a block. -/
def analyzeStmts (S : Sema) : List Stmt → Except String (List AStmt × Sema)
  | [] => .ok ([], S)
  | s :: ss => do
    let (s, S) ← analyzeStmt S s
    let (ss, S) ← analyzeStmts S ss
    .ok (s :: ss, S)
end

/-! ## Top level -/

/-- Declare the parameters of a function. -/
def declareParams (S : Sema) : List String → List (String × SymId) × Sema
  | [] => ([], S)
  | p :: ps =>
    let (id, S) := S.declare { kind := .Param, name := p }
    let (ps, S) := declareParams S ps
    ((p, id) :: ps, S)

/-- Analyse a function: its parameters in a scope of their own, around the one
of its body. -/
def analyzeFunc (S : Sema) (fn : FuncDef) : Except String (AFuncDef × Sema) := do
  let (params, S) := declareParams S.pushScope fn.params
  let (body, S) ← analyzeStmt S fn.bodyStmt
  .ok ({ returnsVoid := fn.returnsVoid, name := fn.name, params, body }, S.popScope)

/-- Analyse a global: its initialiser is constant, and a variable takes the
next global index. -/
def analyzeGlobal (S : Sema) (g : GlobalVar) : Except String (AGlobalVar × Sema) := do
  let init ← analyzeExpr S g.init
  if !init.isConst then
    error g.line ("global initializer of '" ++ g.name ++ "' is not a constant expression")
  else
    let initValue := init.constValue
    let (sym, S) :=
      if g.isConst then
        S.declare { kind := .Const, name := g.name, isConst := true,
                    constValue := initValue }
      else
        { S with globalCount := S.globalCount + 1 }.declare
          { kind := .GlobalVar, name := g.name, globalId := some S.globalCount }
    .ok ({ isConst := g.isConst, name := g.name, init, sym, initValue }, S)

/-- Register the function at a position of the module. -/
def registerFunc (S : Sema) (index : Nat) (fn : FuncDef) : Except String Sema :=
  if (S.funcs.lookup fn.name).isSome then
    error fn.line ("redefinition of function '" ++ fn.name ++ "'")
  else if fn.name = "main" ∧ (fn.returnsVoid ∨ fn.params ≠ []) then
    error fn.line "'main' must be 'int main()'"
  else
    let ref : FuncRef :=
      { index, name := fn.name, returnsVoid := fn.returnsVoid, arity := fn.params.length }
    .ok { S with funcs := (fn.name, ref) :: S.funcs }

/-- An item after the first pass: a global is done, a function is only
registered. -/
inductive Registered where
  | global (g : AGlobalVar)
  | func (fn : FuncDef)

/-- **The first pass**, over the items from a position on. -/
def registerItems (S : Sema) (index : Nat) :
    List TopLevel → Except String (List Registered × Sema)
  | [] => .ok ([], S)
  | .global g :: items => do
    let (g, S) ← analyzeGlobal S g
    let (items, S) ← registerItems S (index + 1) items
    .ok (.global g :: items, S)
  | .func fn :: items => do
    let S ← registerFunc S index fn
    let (items, S) ← registerItems S (index + 1) items
    .ok (.func fn :: items, S)

/-- **The second pass**: the function bodies, in source order. -/
def analyzeBodies (S : Sema) : List Registered → Except String (List ATopLevel × Sema)
  | [] => .ok ([], S)
  | .global g :: items => do
    let (items, S) ← analyzeBodies S items
    .ok (.global g :: items, S)
  | .func fn :: items => do
    let (fn, S) ← analyzeFunc S fn
    let (items, S) ← analyzeBodies S items
    .ok (.func fn :: items, S)

/-- **The analysis of a module**: the annotated module and the final tables. -/
def analyze (m : Module) : Except String (AModule × Sema) := do
  let (items, S) ← registerItems ({} : Sema).pushScope 0 m.items
  if (S.funcs.lookup "main").isNone then
    error 0 "program is missing an entry function 'int main()'"
  else
    let (items, S) ← analyzeBodies S items
    .ok ({ items }, S.popScope)

end Sema

end ToyC
