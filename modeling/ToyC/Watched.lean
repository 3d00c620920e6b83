import ToyC.SourceSemantics

/-!
# Watched executions

The meaning of the source once more, with things that may not happen. What is forbidden has no
meaning: a watched execution that reads a variable, or divides by zero, when it must not, is stuck
(`Permits`). So is a call of a function when the calls are answered by nobody. When a watched
execution has a value nothing of the kind happened in it, and then the execution itself has the
same value (`watchExpr_values`, `Module.watched_values`).
-/

namespace ToyC

open Outcome

/-- **What an execution may do**, besides what every execution may. -/
structure Permits where
  reads : Bool
  zeros : Bool
  deriving DecidableEq, Repr

/-- Only constants are read, and no divisor is zero. -/
def Permits.none : Permits := ⟨false, false⟩

/-- No divisor is zero. -/
def Permits.noZeroDivisors : Permits := ⟨true, false⟩

/-- Whether an operator is a division. -/
def BinOp.divides (op : BinOp) : Bool := op = .Div || op = .Mod

/-- The value of a name, if it may be read. -/
def Permits.readName (p : Permits) (env : Env) (x : String) (G : Globals) : Outcome Word :=
  match env.lookup x with
  | some (.const v) => .ok v
  | some (.var v) => if p.reads then .ok v else .stuck
  | some (.global gid) => if p.reads then .ok (G gid) else .stuck
  | Option.none => .stuck

/-- The value of a binary operator, if it may be computed. -/
def Permits.eval (p : Permits) (op : BinOp) (a b : Word) : Outcome Word :=
  if op.divides && b == 0#32 && !p.zeros then .stuck else .ok (op.eval a b)

/-! ## Expressions -/

mutual
/-- **Evaluate an expression** under watch. -/
def watchExpr (p : Permits) (voids : Voids) (call : Callee) (env : Env) :
    Expr → Globals → Outcome (Word × Globals)
  | .number _ v, G => .ok (v, G)
  | .var _ x, G => do
    let v ← p.readName env x G
    .ok (v, G)
  | .binary _ op lhs rhs, G => do
    let (a, G) ← watchExpr p voids call env lhs G
    let (b, G) ← watchExpr p voids call env rhs G
    let v ← p.eval op a b
    .ok (v, G)
  | .logical _ isOr lhs rhs, G => do
    let (a, G) ← watchExpr p voids call env lhs G
    match shortCircuit isOr a with
    | some v => .ok (v, G)
    | none => do
      let (b, G) ← watchExpr p voids call env rhs G
      .ok (Word.ofBool (Word.truthy b), G)
  | .unary _ op operand, G => do
    let (a, G) ← watchExpr p voids call env operand G
    .ok (op.eval a, G)
  | .call _ callee args, G => do
    let (vs, G) ← watchArgs p voids call env args G
    let (v, G) ← call ⟨callee, vs, G⟩
    let v ← callValue (voids callee) v
    .ok (v, G)
/-- Evaluate the arguments of a call, left to right, under watch. -/
def watchArgs (p : Permits) (voids : Voids) (call : Callee) (env : Env) :
    List Expr → Globals → Outcome (List Word × Globals)
  | [], G => .ok ([], G)
  | e :: es, G => do
    let (v, G) ← watchExpr p voids call env e G
    let (vs, G) ← watchArgs p voids call env es G
    .ok (v :: vs, G)
end

/-! ## Statements -/

mutual
/-- **Execute a statement** under watch. -/
def watchStmt (p : Permits) (voids : Voids) (call : Callee) (n : Nat) :
    Stmt → Env → Globals → Outcome (Flow × Globals)
  | .block _ ss, env, G => do
    let (flow, G) ← watchStmts p voids call n ss ([] :: env) G
    .ok (flow.popScope, G)
  | .empty _, env, G => .ok (.normal env, G)
  | .exprStmt _ e, env, G => do
    let (_, G) ← watchExpr p voids call env e G
    .ok (.normal env, G)
  | .assign _ x value, env, G => do
    let (v, G) ← watchExpr p voids call env value G
    assignName env x v G
  | .varDecl _ isConst x init, env, G => do
    let (v, G) ← watchExpr p voids call env init G
    .ok (.normal (env.declare x (if isConst then .const v else .var v)), G)
  | .ifStmt _ cond then_ none, env, G => do
    let (v, G) ← watchExpr p voids call env cond G
    if Word.truthy v then watchStmt p voids call n then_ env G else .ok (.normal env, G)
  | .ifStmt _ cond then_ (some else_), env, G => do
    let (v, G) ← watchExpr p voids call env cond G
    if Word.truthy v then watchStmt p voids call n then_ env G
    else watchStmt p voids call n else_ env G
  | .whileStmt _ cond body, env, G =>
    Outcome.loop (fun n s => do
      let (v, G) ← watchExpr p voids call s.1 cond s.2
      if Word.truthy v then do
        let (flow, G) ← watchStmt p voids call n body s.1 G
        .ok (flow.afterBody G)
      else .ok (.inr (.normal s.1, G))) n (env, G)
  | .breakStmt _, env, G => .ok (.brk env, G)
  | .continueStmt _, env, G => .ok (.cont env, G)
  | .returnStmt _ none, _, G => .ok (.ret none, G)
  | .returnStmt _ (some value), env, G => do
    let (v, G) ← watchExpr p voids call env value G
    .ok (.ret (some v), G)
/-- Execute the statements of a block until control leaves it, under watch. -/
def watchStmts (p : Permits) (voids : Voids) (call : Callee) (n : Nat) :
    List Stmt → Env → Globals → Outcome (Flow × Globals)
  | [], env, G => .ok (.normal env, G)
  | s :: ss, env, G => do
    let (flow, G) ← watchStmt p voids call n s env G
    match flow with
    | .normal env => watchStmts p voids call n ss env G
    | flow => .ok (flow, G)
end

/-! ## Functions and modules -/

/-- **Run a function** under watch. -/
def FuncDef.watched (p : Permits) (fn : FuncDef) (voids : Voids)
    (globals : List (String × Binding)) (call : Callee) (n : Nat) (args : List Word)
    (G : Globals) : Outcome CallResult :=
  if args.length = fn.params.length then do
    let (flow, G) ←
      watchStmt p voids call n fn.bodyStmt (bindParams [[], globals] fn.params args) G
    let v ← fn.returned flow
    .ok (v, G)
  else .stuck

/-- The body of a call, under watch. -/
def Module.watchedBody (p : Permits) (m : Module) (q : CallArgs) (call : Callee) (n : Nat) :
    Outcome CallResult :=
  match m.find q.name with
  | none => .stuck
  | some fn => do
    let (globals, _) ← declareGlobals [] [] m.items
    fn.watched p m.voids globals call n q.args q.globals

/-- **Call a function of the module** under watch, to a depth of recursion. -/
def Module.watchedCall (p : Permits) (m : Module) (k : Nat) : Callee :=
  Outcome.calls (m.watchedBody p) k

/-! ## What is watched is what happens -/

section Values

variable {p : Permits} {voids : Voids} {call call' : Callee}

theorem Permits.readName_values (p : Permits) (env : Env) (x : String) (G : Globals) :
    Values (p.readName env x G) (ToyC.readName env x G) := by
  intro v h
  unfold Permits.readName at h
  unfold ToyC.readName
  split at h
  · rename_i w hx
    rw [hx]
    exact h
  · rename_i w hx
    rw [hx]
    split at h
    · exact h
    · cases h
  · rename_i gid hx
    rw [hx]
    split at h
    · exact h
    · cases h
  · cases h

theorem Permits.eval_values {op : BinOp} {a b v : Word} (h : p.eval op a b = .ok v) :
    op.eval a b = v := by
  unfold Permits.eval at h
  split at h
  · cases h
  · exact Outcome.ok.inj h

mutual
/-- **An expression has the value it has under watch.** -/
theorem watchExpr_values (hcall : ∀ q, Values (call q) (call' q)) (env : Env) (e : Expr)
    (G : Globals) :
    Values (watchExpr p voids call env e G) (evalExpr voids call' env e G) := by
  match e with
  | .number _ v => exact precise_values.refl _
  | .var _ x => exact precise_values.bind (p.readName_values env x G) fun _ => precise_values.refl _
  | .binary _ op lhs rhs =>
    refine precise_values.bind (watchExpr_values hcall env lhs G) fun a => ?_
    refine precise_values.bind (watchExpr_values hcall env rhs a.2) fun b => ?_
    intro r hr
    obtain ⟨v, hv, hr⟩ := bind_eq_ok.mp hr
    exact (congrArg (fun v => ok (v, b.2)) (Permits.eval_values hv)).trans hr
  | .logical _ isOr lhs rhs =>
    refine precise_values.bind (watchExpr_values hcall env lhs G) fun a => ?_
    dsimp only
    cases shortCircuit isOr a.1 with
    | some v => exact precise_values.refl _
    | none =>
      exact precise_values.bind (watchExpr_values hcall env rhs a.2) fun _ => precise_values.refl _
  | .unary _ op operand =>
    exact precise_values.bind (watchExpr_values hcall env operand G) fun _ => precise_values.refl _
  | .call _ callee args =>
    exact precise_values.bind (watchArgs_values hcall env args G) fun a =>
      precise_values.bind (hcall _) fun _ => precise_values.refl _
/-- The same for the arguments of a call. -/
theorem watchArgs_values (hcall : ∀ q, Values (call q) (call' q)) (env : Env) (es : List Expr)
    (G : Globals) :
    Values (watchArgs p voids call env es G) (evalArgs voids call' env es G) := by
  match es with
  | [] => exact precise_values.refl _
  | e :: es =>
    exact precise_values.bind (watchExpr_values hcall env e G) fun a =>
      precise_values.bind (watchArgs_values hcall env es a.2) fun _ => precise_values.refl _
end

mutual
/-- **A statement does what it does under watch.** -/
theorem watchStmt_values (hcall : ∀ q, Values (call q) (call' q))
    {n n' : Nat} (hn : n ≤ n') (s : Stmt) (env : Env) (G : Globals) :
    Values (watchStmt p voids call n s env G) (execStmt voids call' n' s env G) := by
  match s with
  | .block _ ss =>
    exact precise_values.bind (watchStmts_values hcall hn ss ([] :: env) G) fun _ =>
      precise_values.refl _
  | .empty _ | .breakStmt _ | .continueStmt _ | .returnStmt _ none => exact precise_values.refl _
  | .exprStmt _ e | .assign _ x e | .varDecl _ isConst x e | .returnStmt _ (some e) =>
    exact precise_values.bind (watchExpr_values hcall env e G) fun _ => precise_values.refl _
  | .ifStmt _ cond then_ none =>
    refine precise_values.bind (watchExpr_values hcall env cond G) fun a => ?_
    dsimp only
    split
    · exact watchStmt_values hcall hn then_ env a.2
    · exact precise_values.refl _
  | .ifStmt _ cond then_ (some else_) =>
    refine precise_values.bind (watchExpr_values hcall env cond G) fun a => ?_
    dsimp only
    split
    · exact watchStmt_values hcall hn then_ env a.2
    · exact watchStmt_values hcall hn else_ env a.2
  | .whileStmt _ cond body =>
    refine loop_le precise_values (fun k k' s hk => ?_) hn (env, G)
    refine precise_values.bind (watchExpr_values hcall s.1 cond s.2) fun a => ?_
    dsimp only
    split
    · exact precise_values.bind (watchStmt_values hcall hk body s.1 a.2) fun _ =>
        precise_values.refl _
    · exact precise_values.refl _
/-- The same for the statements of a block. -/
theorem watchStmts_values (hcall : ∀ q, Values (call q) (call' q))
    {n n' : Nat} (hn : n ≤ n') (ss : List Stmt) (env : Env) (G : Globals) :
    Values (watchStmts p voids call n ss env G) (execStmts voids call' n' ss env G) := by
  match ss with
  | [] => exact precise_values.refl _
  | s :: ss =>
    refine precise_values.bind (watchStmt_values hcall hn s env G) fun a => ?_
    dsimp only
    cases a.1 with
    | normal env => exact watchStmts_values hcall hn ss env a.2
    | brk | cont | ret => exact precise_values.refl _
end

theorem FuncDef.watched_values (hcall : ∀ q, Values (call q) (call' q)) (fn : FuncDef)
    (globals : List (String × Binding)) (n : Nat)
    (args : List Word) (G : Globals) :
    Values (fn.watched p voids globals call n args G) (fn.run voids globals call' n args G) := by
  unfold FuncDef.watched FuncDef.run
  split
  · exact precise_values.bind (watchStmt_values hcall (Nat.le_refl n) _ _ G) fun _ =>
      precise_values.refl _
  · exact precise_values.refl _

end Values

/-- **A call returns what it returns under watch.** -/
theorem Module.watched_values (p : Permits) (m : Module) (k : Nat) (q : CallArgs) :
    Values (m.watchedCall p k q) (m.call k q) := by
  induction k generalizing q with
  | zero => exact precise_values.refl _
  | succ k ih =>
    show Values (m.watchedBody p q (m.watchedCall p k) k) (m.body q (m.call k) k)
    unfold Module.watchedBody Module.body
    cases m.find q.name with
    | none => exact precise_values.refl _
    | some fn =>
      exact precise_values.bind (precise_values.refl _) fun a =>
        FuncDef.watched_values ih fn a.1 k q.args q.globals

end ToyC
