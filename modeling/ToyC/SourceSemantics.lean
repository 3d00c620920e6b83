import ToyC.AST
import ToyC.IRSemantics

/-!
# Meaning of the source

A big-step semantics of the trees of the parser, written from the language and
not from the compiler: names are looked up in a stack of scopes, operands and
arguments are evaluated from left to right, `&&` and `||` stop early, arithmetic
wraps around and divides as the target does. An expression yields a value and
the globals after it; a statement also says how control leaves it (`Flow`). Calls
are answered by an oracle, as in the semantics of the three-address code, so that
the two can be compared function by function.

Where C gives no meaning to the value of a call there is a choice to make. A call
of a `void` function used as a value counts as 0; a function that is not `void` but
executed a bare `return` has no value, and its call is stuck.
-/

namespace ToyC

/-- What a name in scope stands for: a local variable with its value, a constant,
or a global variable. -/
inductive Binding where
  | var (v : Word)
  | const (v : Word)
  | global (gid : Nat)
  deriving DecidableEq, Repr, Inhabited

/-- The stack of scopes, innermost first; a scope has its newest declaration first. -/
abbrev Env := List (List (String × Binding))

namespace Env

/-- What a name stands for. -/
def lookup (env : Env) (x : String) : Option Binding :=
  env.findSome? fun scope => scope.lookup x

/-- Declare a name in the innermost scope. -/
def declare (env : Env) (x : String) (b : Binding) : Env :=
  match env with
  | [] => []
  | scope :: outer => ((x, b) :: scope) :: outer

/-- Give a new value to a name declared in a scope. -/
def assignIn (x : String) (v : Word) : List (String × Binding) → List (String × Binding)
  | [] => []
  | (y, b) :: scope => if x == y then (y, .var v) :: scope else (y, b) :: assignIn x v scope

/-- **Assign to a local variable**: the innermost declaration of the name changes. -/
def assign (env : Env) (x : String) (v : Word) : Env :=
  match env with
  | [] => []
  | scope :: outer =>
    if (scope.lookup x).isSome then assignIn x v scope :: outer
    else scope :: assign outer x v

end Env

/-- What the meaning of a body depends on besides its state: which functions of the
module return nothing. -/
abbrev Voids := String → Bool

/-! ## Expressions -/

/-- The value of a binary operator. -/
def BinOp.eval (op : BinOp) (a b : Word) : Word :=
  match op with
  | .Add => a + b
  | .Sub => a - b
  | .Mul => a * b
  | .Div => Word.div a b
  | .Mod => Word.rem a b
  | .Lt => Word.ofBool (a.slt b)
  | .Gt => Word.ofBool (b.slt a)
  | .Le => Word.ofBool (!b.slt a)
  | .Ge => Word.ofBool (!a.slt b)
  | .Eq => Word.ofBool (a == b)
  | .Ne => Word.ofBool (a != b)

/-- The value of a unary operator. -/
def UnOp.eval (op : UnOp) (a : Word) : Word :=
  match op with
  | .Plus => a
  | .Neg => -a
  | .Not => Word.ofBool (a == 0#32)

/-- The value of a call, from what the function returned. -/
def callValue (isVoid : Bool) (v : Option Word) : Outcome Word :=
  if isVoid then .ok 0#32
  else match v with
    | some v => .ok v
    | none => .stuck

/-- The value of a name. -/
def readName (env : Env) (x : String) (G : Globals) : Outcome Word :=
  match env.lookup x with
  | some (.var v) | some (.const v) => .ok v
  | some (.global gid) => .ok (G gid)
  | none => .stuck

/-- What the left operand of `&&` or `||` decides on its own. -/
def shortCircuit (isOr : Bool) (lhs : Word) : Option Word :=
  if isOr then (if Word.truthy lhs then some 1#32 else none)
  else (if Word.truthy lhs then none else some 0#32)

mutual
/-- **Evaluate an expression.** -/
def evalExpr (voids : Voids) (call : Callee) (env : Env) :
    Expr → Globals → Outcome (Word × Globals)
  | .number _ v, G => .ok (v, G)
  | .var _ x, G => do
    let v ← readName env x G
    .ok (v, G)
  | .binary _ op lhs rhs, G => do
    let (a, G) ← evalExpr voids call env lhs G
    let (b, G) ← evalExpr voids call env rhs G
    .ok (op.eval a b, G)
  | .logical _ isOr lhs rhs, G => do
    let (a, G) ← evalExpr voids call env lhs G
    match shortCircuit isOr a with
    | some v => .ok (v, G)
    | none => do
      let (b, G) ← evalExpr voids call env rhs G
      .ok (Word.ofBool (Word.truthy b), G)
  | .unary _ op operand, G => do
    let (a, G) ← evalExpr voids call env operand G
    .ok (op.eval a, G)
  | .call _ callee args, G => do
    let (vs, G) ← evalArgs voids call env args G
    let (v, G) ← call ⟨callee, vs, G⟩
    let v ← callValue (voids callee) v
    .ok (v, G)
/-- Evaluate the arguments of a call, left to right. -/
def evalArgs (voids : Voids) (call : Callee) (env : Env) :
    List Expr → Globals → Outcome (List Word × Globals)
  | [], G => .ok ([], G)
  | e :: es, G => do
    let (v, G) ← evalExpr voids call env e G
    let (vs, G) ← evalArgs voids call env es G
    .ok (v :: vs, G)
end

/-! ## Statements -/

/-- **How control leaves a statement**, with the scopes as they are then. -/
inductive Flow where
  | normal (env : Env)
  | brk (env : Env)
  | cont (env : Env)
  | ret (v : Option Word)
  deriving Repr, Inhabited

/-- Leave the innermost scope. -/
def Flow.popScope : Flow → Flow
  | normal env => normal env.tail
  | brk env => brk env.tail
  | cont env => cont env.tail
  | ret v => ret v

/-- Assign to the variable a name stands for. -/
def assignName (env : Env) (x : String) (v : Word) (G : Globals) : Outcome (Flow × Globals) :=
  match env.lookup x with
  | some (.var _) => .ok (.normal (env.assign x v), G)
  | some (.global gid) => .ok (.normal env, G.set gid v)
  | some (.const _) | none => .stuck

/-- What the flow out of the body makes of a loop: another turn or its end. -/
def Flow.afterBody (G : Globals) : Flow → (Env × Globals) ⊕ (Flow × Globals)
  | normal env | cont env => .inl (env, G)
  | brk env => .inr (normal env, G)
  | ret v => .inr (ret v, G)

mutual
/-- **Execute a statement**, with an amount of fuel for its loops. -/
def execStmt (voids : Voids) (call : Callee) (n : Nat) :
    Stmt → Env → Globals → Outcome (Flow × Globals)
  | .block _ ss, env, G => do
    let (flow, G) ← execStmts voids call n ss ([] :: env) G
    .ok (flow.popScope, G)
  | .empty _, env, G => .ok (.normal env, G)
  | .exprStmt _ e, env, G => do
    let (_, G) ← evalExpr voids call env e G
    .ok (.normal env, G)
  | .assign _ x value, env, G => do
    let (v, G) ← evalExpr voids call env value G
    assignName env x v G
  | .varDecl _ isConst x init, env, G => do
    let (v, G) ← evalExpr voids call env init G
    .ok (.normal (env.declare x (if isConst then .const v else .var v)), G)
  | .ifStmt _ cond then_ none, env, G => do
    let (v, G) ← evalExpr voids call env cond G
    if Word.truthy v then execStmt voids call n then_ env G else .ok (.normal env, G)
  | .ifStmt _ cond then_ (some else_), env, G => do
    let (v, G) ← evalExpr voids call env cond G
    if Word.truthy v then execStmt voids call n then_ env G
    else execStmt voids call n else_ env G
  | .whileStmt _ cond body, env, G =>
    Outcome.loop (fun n s => do
      let (v, G) ← evalExpr voids call s.1 cond s.2
      if Word.truthy v then do
        let (flow, G) ← execStmt voids call n body s.1 G
        .ok (flow.afterBody G)
      else .ok (.inr (.normal s.1, G))) n (env, G)
  | .breakStmt _, env, G => .ok (.brk env, G)
  | .continueStmt _, env, G => .ok (.cont env, G)
  | .returnStmt _ none, _, G => .ok (.ret none, G)
  | .returnStmt _ (some value), env, G => do
    let (v, G) ← evalExpr voids call env value G
    .ok (.ret (some v), G)
/-- Execute the statements of a block until control leaves it. -/
def execStmts (voids : Voids) (call : Callee) (n : Nat) :
    List Stmt → Env → Globals → Outcome (Flow × Globals)
  | [], env, G => .ok (.normal env, G)
  | s :: ss, env, G => do
    let (flow, G) ← execStmt voids call n s env G
    match flow with
    | .normal env => execStmts voids call n ss env G
    | flow => .ok (flow, G)
end

/-! ## Functions and modules -/

/-- The scope of the parameters, around the scopes outside. -/
def bindParams (env : Env) : List String → List Word → Env
  | p :: ps, v :: vs => bindParams (env.declare p (.var v)) ps vs
  | _, _ => env

/-- What a function returns when control leaves its body. -/
def FuncDef.returned (fn : FuncDef) : Flow → Outcome (Option Word)
  | .ret v => .ok v
  | .normal _ => .ok (if fn.returnsVoid then none else some 0#32)
  | .brk _ | .cont _ => .stuck

/-- **Run a function** on arguments, in the scope of the globals. -/
def FuncDef.run (fn : FuncDef) (voids : Voids) (globals : List (String × Binding))
    (call : Callee) (n : Nat) (args : List Word) (G : Globals) : Outcome CallResult :=
  if args.length = fn.params.length then do
    let (flow, G) ← execStmt voids call n fn.bodyStmt (bindParams [[], globals] fn.params args) G
    let v ← fn.returned flow
    .ok (v, G)
  else .stuck

/-- The scope of the globals and the initial values of the global variables, as the
items declare them one after the other: an initialiser sees the items before it,
and can only depend on the constants among them. -/
def declareGlobals (scope : List (String × Binding)) (inits : List Word) :
    List TopLevel → Outcome (List (String × Binding) × List Word)
  | [] => .ok (scope, inits)
  | .func _ :: items => declareGlobals scope inits items
  | .global g :: items => do
    let (v, _) ← evalExpr (fun _ => false) (fun _ => .stuck) [scope] g.init fun _ => 0#32
    if g.isConst then declareGlobals ((g.name, .const v) :: scope) inits items
    else declareGlobals ((g.name, .global inits.length) :: scope) (inits ++ [v]) items

namespace Module

/-- The function of a name. -/
def find (m : Module) (name : String) : Option FuncDef :=
  m.items.findSome? fun
    | .func fn => if fn.name == name then some fn else none
    | .global _ => none

/-- Whether the function of a name returns nothing. -/
def voids (m : Module) : Voids := fun name =>
  match m.find name with
  | some fn => fn.returnsVoid
  | none => false

/-- The body of a call. -/
def body (m : Module) (p : CallArgs) (call : Callee) (n : Nat) : Outcome CallResult :=
  match m.find p.name with
  | none => .stuck
  | some fn => do
    let (globals, _) ← declareGlobals [] [] m.items
    fn.run m.voids globals call n p.args p.globals

/-- **Call a function of the module**, to a depth of recursion. -/
def call (m : Module) (k : Nat) : Callee := Outcome.calls m.body k

/-- **What a call means**: it returns a result, at some depth of recursion. -/
def Returns (m : Module) (p : CallArgs) (r : CallResult) : Prop :=
  ∃ k, m.call k p = .ok r

/-- A call that runs on at every depth of recursion. -/
def Diverges (m : Module) (p : CallArgs) : Prop :=
  ∀ k, m.call k p = .timeout

/-- The globals when the program starts. -/
def initialGlobals (m : Module) : Globals := fun gid =>
  match declareGlobals [] [] m.items with
  | .ok (_, inits) => inits.getD gid 0#32
  | .timeout | .stuck => 0#32

end Module

/-! ## Executions are regular -/

open Outcome

mutual
/-- Evaluating an expression depends on its calls as a computation does. -/
theorem evalExpr_regular (voids : Voids) (env : Env) (e : Expr) (G : Globals) :
    Regular fun (call : Callee) _ => evalExpr voids call env e G := by
  match e with
  | .number _ v => exact .const _
  | .var _ x => exact .const _
  | .binary _ op lhs rhs =>
    exact (evalExpr_regular voids env lhs G).bind fun a =>
      (evalExpr_regular voids env rhs a.2).bind fun _ => .const _
  | .logical _ isOr lhs rhs =>
    refine (evalExpr_regular voids env lhs G).bind fun a => ?_
    cases hs : shortCircuit isOr a.1 with
    | some v =>
      simp only [hs]
      exact .const _
    | none =>
      simp only [hs]
      exact (evalExpr_regular voids env rhs a.2).bind fun _ => .const _
  | .unary _ op operand =>
    exact (evalExpr_regular voids env operand G).bind fun _ => .const _
  | .call _ callee args =>
    exact (evalArgs_regular voids env args G).bind fun a =>
      (Regular.ask _).bind fun _ => .const _
/-- The same for the arguments of a call. -/
theorem evalArgs_regular (voids : Voids) (env : Env) (es : List Expr) (G : Globals) :
    Regular fun (call : Callee) _ => evalArgs voids call env es G := by
  match es with
  | [] => exact .const _
  | e :: es =>
    exact (evalExpr_regular voids env e G).bind fun a =>
      (evalArgs_regular voids env es a.2).bind fun _ => .const _
end

mutual
/-- Executing a statement depends on its calls and its fuel as a computation does. -/
theorem execStmt_regular (voids : Voids) (s : Stmt) (env : Env) (G : Globals) :
    Regular fun (call : Callee) n => execStmt voids call n s env G := by
  match s with
  | .block _ ss =>
    exact (execStmts_regular voids ss ([] :: env) G).bind fun _ => .const _
  | .empty _ => exact .const _
  | .exprStmt _ e => exact (evalExpr_regular voids env e G).bind fun _ => .const _
  | .assign _ x value => exact (evalExpr_regular voids env value G).bind fun _ => .const _
  | .varDecl _ isConst x init =>
    exact (evalExpr_regular voids env init G).bind fun _ => .const _
  | .ifStmt _ cond then_ none =>
    refine (evalExpr_regular voids env cond G).bind fun a => ?_
    by_cases h : Word.truthy a.1 = true
    · simp only [h, if_true]
      exact execStmt_regular voids then_ env a.2
    · simp only [h]
      exact .const _
  | .ifStmt _ cond then_ (some else_) =>
    refine (evalExpr_regular voids env cond G).bind fun a => ?_
    by_cases h : Word.truthy a.1 = true
    · simp only [h, if_true]
      exact execStmt_regular voids then_ env a.2
    · simp only [h]
      exact execStmt_regular voids else_ env a.2
  | .whileStmt _ cond body =>
    refine Regular.loop (fun s => ?_) (env, G)
    refine (evalExpr_regular voids s.1 cond s.2).bind fun a => ?_
    by_cases h : Word.truthy a.1 = true
    · simp only [h, if_true]
      exact (execStmt_regular voids body s.1 a.2).bind fun _ => .const _
    · simp only [h]
      exact .const _
  | .breakStmt _ => exact .const _
  | .continueStmt _ => exact .const _
  | .returnStmt _ none => exact .const _
  | .returnStmt _ (some value) =>
    exact (evalExpr_regular voids env value G).bind fun _ => .const _
/-- The same for the statements of a block. -/
theorem execStmts_regular (voids : Voids) (ss : List Stmt) (env : Env) (G : Globals) :
    Regular fun (call : Callee) n => execStmts voids call n ss env G := by
  match ss with
  | [] => exact .const _
  | s :: ss =>
    refine (execStmt_regular voids s env G).bind fun a => ?_
    cases hf : a.1 with
    | normal env' =>
      simp only [hf]
      exact execStmts_regular voids ss env' a.2
    | brk | cont | ret =>
      simp only [hf]
      exact .const _
end

/-- **A run depends on its calls as a computation does.** -/
theorem FuncDef.run_regular (fn : FuncDef) (voids : Voids) (globals : List (String × Binding))
    (args : List Word) (G : Globals) :
    Regular fun call n => fn.run voids globals call n args G := by
  unfold FuncDef.run
  split
  · exact (execStmt_regular voids fn.bodyStmt _ G).bind fun _ => .const _
  · exact .const _

theorem Module.body_regular (m : Module) (p : CallArgs) : Regular (m.body p) := by
  unfold Module.body
  split
  · exact .const _
  · cases declareGlobals [] [] m.items with
    | ok a => exact FuncDef.run_regular _ m.voids a.1 p.args p.globals
    | timeout => exact .const _
    | stuck => exact .const _

/-- What a call returns is the answer of the limit. -/
theorem Module.returns_iff (m : Module) (p : CallArgs) (r : CallResult) :
    m.Returns p r ↔ limit m.body p = .ok r :=
  (limit_eq_iff m.body_regular (by simp)).symm

theorem Module.diverges_iff (m : Module) (p : CallArgs) :
    m.Diverges p ↔ limit m.body p = .timeout :=
  (limit_eq_timeout_iff m.body_regular).symm

end ToyC
