import ToyC.IRGen

/-!
# The generator with its assertions

The generator indexes its blocks, the stack of loops and the vregs of the symbols without a check.
This is the generator once more, with the checks: it fails where an instruction or a terminator
goes to a block that has a terminator already, or to none at all, and where a `break` or a
`continue` finds no loop. With `vregs` it also fails where it names a variable that has no vreg,
which the source then writes as `-1`. Everything else is as in the generator, and in the same order.
-/

namespace ToyC

/-- Whether the value of an expression is that of a variable, which is then named where the value
is used. -/
def AExpr.isName : AExpr → Bool
  | .var _ _ _ => true
  | .unary _ .Plus operand => operand.isName
  | _ => false

namespace IRGen

/-- A block of the generator. -/
def blockAt (g : IRGen) (b : Nat) : BasicBlock := g.blocks.getD b {}

/-- Whether the current block exists and is still open. -/
def canWrite (g : IRGen) : Bool :=
  g.curBB < g.blocks.length && (g.blockAt g.curBB).term = .None

/-! ## Blocks and instructions -/

/-- Append an instruction, to an open block. -/
def emit? (g : IRGen) (inst : Inst) : Option IRGen :=
  if g.ensureOpen.canWrite then some (g.emit inst) else none

/-- Give the current block its terminator, if it has none yet. -/
def close? (g : IRGen) (f : BasicBlock → BasicBlock) : Option IRGen :=
  if g.ensureOpen.canWrite then some (g.close f) else none

def termJmp? (g : IRGen) (target : Nat) : Option IRGen :=
  g.close? fun bb => { bb with term := .Jmp, succ0 := target }

def termBr? (g : IRGen) (cond : Val) (t f : Nat) : Option IRGen :=
  g.close? fun bb => { bb with term := .Br, cond, succ0 := t, succ1 := f }

def termRet? (g : IRGen) (hasVal : Bool) (v : Val) : Option IRGen :=
  g.close? fun bb => { bb with term := .Ret, retHasVal := hasVal, retVal := v }

/-- Leave a loop, if there is one. -/
def exitLoop? (g : IRGen) (target : Loop → Nat) : Option IRGen := do
  let loop ← g.loops.head?
  g.termJmp? (target loop)

/-- The vreg of a variable, if it has one. -/
def vregOf? (vregs : Bool) (g : IRGen) (sym : SymId) : Option Nat :=
  if vregs then g.irId.lookup sym else some (g.vregOf sym)

/-! ## The ways of emitting a node -/

def genVar? (vregs : Bool) (S : Sema) (sym : SymId) (g : IRGen) : Option (Val × IRGen) :=
  if (S.symbol sym).kind = .GlobalVar then do
    let (t, g) := g.newVreg
    let g ← g.emit? { op := .LoadGlobal, dst := some t, gid := (S.symbol sym).globalId.getD 0 }
    some (.reg t, g)
  else do
    let r ← g.vregOf? vregs sym
    some (.reg r, g)

def genBinary? (op : BinOp) (lhs rhs : IRGen → Option (Val × IRGen)) (g : IRGen) :
    Option (Val × IRGen) := do
  let (la, g) ← lhs g
  let (lb, g) ← rhs g
  let (t, g) := g.newVreg
  let g ← g.emit? { op := mapBin op, dst := some t, a := la, b := lb }
  some (.reg t, g)

def genUnary? (op : UnOp) (operand : IRGen → Option (Val × IRGen)) (g : IRGen) :
    Option (Val × IRGen) :=
  match op with
  | .Plus => operand g
  | .Neg | .Not => do
    let (a, g) ← operand g
    let (t, g) := g.newVreg
    let g ← g.emit? { op := if op = .Neg then .Neg else .Not, dst := some t, a }
    some (.reg t, g)

def genCall? (target : FuncRef) (args : IRGen → Option (List Val × IRGen)) (g : IRGen) :
    Option (Val × IRGen) := do
  let (vs, g) ← args g
  if target.returnsVoid then do
    let g ← g.emit? { op := .Call, callee := target.name, args := vs }
    some (.imm 0, g)
  else do
    let (t, g) := g.newVreg
    let g ← g.emit? { op := .Call, dst := some t, callee := target.name, args := vs }
    some (.reg t, g)

def genLogicalCond? (isOr : Bool) (lhs rhs : Nat → Nat → IRGen → Option IRGen) (tBB fBB : Nat)
    (g : IRGen) : Option IRGen := do
  let (mid, g) := g.newBlock
  let g ← if isOr then lhs tBB mid g else lhs mid fBB g
  rhs tBB fBB (g.startBlock mid)

def genTruth? (res tBB fBB endBB : Nat) (g : IRGen) : Option IRGen := do
  let g ← (g.startBlock tBB).emit? { op := .Mv, dst := some res, a := .imm 1 }
  let g ← g.termJmp? endBB
  let g ← (g.startBlock fBB).emit? { op := .Mv, dst := some res, a := .imm 0 }
  let g ← g.termJmp? endBB
  some (g.startBlock endBB)

def genLogical? (cond : Nat → Nat → IRGen → Option IRGen) (g : IRGen) : Option (Val × IRGen) := do
  let (res, g) := g.newVreg
  let (tBB, g) := g.newBlock
  let (fBB, g) := g.newBlock
  let (endBB, g) := g.newBlock
  let g ← cond tBB fBB g
  let g ← genTruth? res tBB fBB endBB g
  some (.reg res, g)

def genBranch? (value : IRGen → Option (Val × IRGen)) (tBB fBB : Nat) (g : IRGen) :
    Option IRGen := do
  let (v, g) ← value g
  g.termBr? v tBB fBB

def genConstCond? (v : Word) (tBB fBB : Nat) (g : IRGen) : Option IRGen :=
  g.termJmp? (if v ≠ 0#32 then tBB else fBB)

/-! ## Expressions and conditions -/

mutual
/-- **Lower an expression** to a value, with checks. -/
def genExpr? (vregs : Bool) (S : Sema) : AExpr → IRGen → Option (Val × IRGen)
  | .number note _, g => some (if note.isConst then (.imm note.constValue, g) else (.imm 0, g))
  | .var note _ sym, g =>
    if note.isConst then some (.imm note.constValue, g) else genVar? vregs S sym g
  | .binary note op lhs rhs, g =>
    if note.isConst then some (.imm note.constValue, g)
    else genBinary? op (genExpr? vregs S lhs) (genExpr? vregs S rhs) g
  | .logical note isOr lhs rhs, g =>
    if note.isConst then some (.imm note.constValue, g)
    else genLogical? (genLogicalCond? isOr (genCond? vregs S lhs) (genCond? vregs S rhs)) g
  | .unary note op operand, g =>
    if note.isConst then some (.imm note.constValue, g)
    else genUnary? op (genExpr? vregs S operand) g
  | .call note _ args target, g =>
    if note.isConst then some (.imm note.constValue, g)
    else genCall? target (genArgs? vregs S args) g
/-- Lower the arguments of a call, left to right, with checks. -/
def genArgs? (vregs : Bool) (S : Sema) : List AExpr → IRGen → Option (List Val × IRGen)
  | [], g => some ([], g)
  | e :: es, g => do
    let (v, g) ← genExpr? vregs S e g
    let (vs, g) ← genArgs? vregs S es g
    some (v :: vs, g)
/-- **Lower a condition** to jumps, with checks. -/
def genCond? (vregs : Bool) (S : Sema) : AExpr → Nat → Nat → IRGen → Option IRGen
  | .number note _, tBB, fBB, g =>
    if note.isConst then genConstCond? note.constValue tBB fBB g
    else genBranch? (fun g => some (.imm 0, g)) tBB fBB g
  | .var note _ sym, tBB, fBB, g =>
    if note.isConst then genConstCond? note.constValue tBB fBB g
    else genBranch? (genVar? vregs S sym) tBB fBB g
  | .binary note op lhs rhs, tBB, fBB, g =>
    if note.isConst then genConstCond? note.constValue tBB fBB g
    else genBranch? (genBinary? op (genExpr? vregs S lhs) (genExpr? vregs S rhs)) tBB fBB g
  | .logical note isOr lhs rhs, tBB, fBB, g =>
    if note.isConst then genConstCond? note.constValue tBB fBB g
    else genLogicalCond? isOr (genCond? vregs S lhs) (genCond? vregs S rhs) tBB fBB g
  | .unary note op operand, tBB, fBB, g =>
    if note.isConst then genConstCond? note.constValue tBB fBB g
    else match op with
      | .Not => genCond? vregs S operand fBB tBB g
      | .Plus | .Neg => genBranch? (genUnary? op (genExpr? vregs S operand)) tBB fBB g
  | .call note _ args target, tBB, fBB, g =>
    if note.isConst then genConstCond? note.constValue tBB fBB g
    else genBranch? (genCall? target (genArgs? vregs S args)) tBB fBB g
end

/-! ## Statements -/

def genAssign? (vregs : Bool) (S : Sema) (sym : SymId) (value : AExpr) (g : IRGen) :
    Option IRGen := do
  let (v, g) ← genExpr? vregs S value g
  if (S.symbol sym).kind = .GlobalVar then
    g.emit? { op := .StoreGlobal, gid := (S.symbol sym).globalId.getD 0, a := v }
  else do
    let r ← g.vregOf? vregs sym
    g.emit? { op := .Mv, dst := some r, a := v }

def genVarDecl? (vregs : Bool) (S : Sema) (init : AExpr) (sym : SymId) (g : IRGen) :
    Option IRGen := do
  let (v, g) := g.newVreg
  let (a, g) ← genExpr? vregs S init { g with irId := (sym, v) :: g.irId }
  g.emit? { op := .Mv, dst := some v, a }

def genIf? (cond : Nat → Nat → IRGen → Option IRGen) (then_ : IRGen → Option IRGen) (g : IRGen) :
    Option IRGen := do
  let (tBB, g) := g.newBlock
  let (jBB, g) := g.newBlock
  let g ← cond tBB jBB g
  let g ← then_ (g.startBlock tBB)
  let g ← g.termJmp? jBB
  some (g.startBlock jBB)

def genIfElse? (cond : Nat → Nat → IRGen → Option IRGen) (then_ else_ : IRGen → Option IRGen)
    (g : IRGen) : Option IRGen := do
  let (tBB, g) := g.newBlock
  let (jBB, g) := g.newBlock
  let (eBB, g) := g.newBlock
  let g ← cond tBB eBB g
  let g ← then_ (g.startBlock tBB)
  let g ← g.termJmp? jBB
  let g ← else_ (g.startBlock eBB)
  let g ← g.termJmp? jBB
  some (g.startBlock jBB)

def genWhile? (cond : Nat → Nat → IRGen → Option IRGen) (body : IRGen → Option IRGen)
    (g : IRGen) : Option IRGen := do
  let (bBB, g) := g.newBlock
  let (cBB, g) := g.newBlock
  let (aBB, g) := g.newBlock
  let g ← g.termJmp? cBB
  let g ← body ((g.pushLoop ⟨cBB, aBB⟩).startBlock bBB)
  let g ← g.termJmp? cBB
  let g ← cond bBB aBB (g.popLoop.startBlock cBB)
  some (g.startBlock aBB)

mutual
/-- **Lower a statement**, with checks. -/
def genStmt? (vregs : Bool) (S : Sema) : AStmt → IRGen → Option IRGen
  | .block ss, g => genStmts? vregs S ss g
  | .empty, g => some g
  -- The value is not used.
  | .exprStmt e, g => do
    let (_, g) ← genExpr? (vregs && !e.isName) S e g
    some g
  | .varDecl isConst _ init sym, g => if isConst then some g else genVarDecl? vregs S init sym g
  | .assign _ sym value, g => genAssign? vregs S sym value g
  | .ifStmt cond then_ none, g =>
    if cond.isConst then
      if cond.constValue ≠ 0#32 then genStmt? vregs S then_ g else some g
    else genIf? (genCond? vregs S cond) (genStmt? vregs S then_) g
  | .ifStmt cond then_ (some else_), g =>
    if cond.isConst then
      if cond.constValue ≠ 0#32 then genStmt? vregs S then_ g else genStmt? vregs S else_ g
    else genIfElse? (genCond? vregs S cond) (genStmt? vregs S then_) (genStmt? vregs S else_) g
  | .whileStmt cond body, g => genWhile? (genCond? vregs S cond) (genStmt? vregs S body) g
  | .breakStmt, g => g.exitLoop? Loop.breakBB
  | .continueStmt, g => g.exitLoop? Loop.continueBB
  | .returnStmt (some value), g => do
    let (v, g) ← genExpr? vregs S value g
    g.termRet? true v
  | .returnStmt none, g => g.termRet? false (.imm 0)
/-- Lower the statements of a block, with checks. -/
def genStmts? (vregs : Bool) (S : Sema) : List AStmt → IRGen → Option IRGen
  | [], g => some g
  | s :: ss, g => do
    let g ← genStmt? vregs S s g
    genStmts? vregs S ss g
end

/-! ## Functions and modules -/

def genBody? (vregs : Bool) (S : Sema) (fn : AFuncDef) (g : IRGen) : Option IRGen := do
  let (entry, g) := g.newBlock
  let g ← genStmt? vregs S fn.body (g.startBlock entry)
  if g.isSealed then some g
  else if g.curReturnsVoid then g.termRet? false (.imm 0)
  else g.termRet? true (.imm 0)

/-- **Lower a function**, with checks. -/
def genFunc? (vregs : Bool) (S : Sema) (fn : AFuncDef) : Option IRFunc := do
  let (paramRegs, g) := genParams fn.params { curReturnsVoid := fn.returnsVoid }
  let g ← genBody? vregs S fn g
  some (computeCFG
    { name := fn.name, returnsVoid := fn.returnsVoid, numParams := fn.params.length,
      paramRegs, blocks := g.blocks, numVregs := g.nextVreg })

def genFuncs? (vregs : Bool) (S : Sema) : List ATopLevel → Option (List IRFunc)
  | [] => some []
  | .global _ :: items => genFuncs? vregs S items
  | .func fn :: items => do
    let f ← genFunc? vregs S fn
    let fs ← genFuncs? vregs S items
    some (f :: fs)

/-- **Lower a module**, with checks. -/
def generate? (vregs : Bool) (S : Sema) (m : AModule) : Option IRModule := do
  let funcs ← genFuncs? vregs S m.items
  some { globals := genGlobals S m.items (List.replicate S.globalCount {}), funcs }

end IRGen

end ToyC
