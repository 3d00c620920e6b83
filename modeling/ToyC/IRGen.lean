import ToyC.IR
import ToyC.Sema

/-!
# Generation of the three-address code

The lowering of the annotated trees, as the source performs it. The generator
appends to a list of blocks; `curBB` is the block being written, and once a
terminator has sealed it the next instruction opens a fresh block, which nothing
reaches. Locals and parameters live in virtual registers for good (`irId`),
constants are inlined, and the conditions of statements are lowered to jumps without
computing a truth value.

The source calls `genExpr` and `genCond` on the same node in turn: the value of a
short-circuit operator is lowered through its condition, and a condition that is no
such operator through its value. Both need the same few ways of emitting a node
from its parts (`genBinary`, `genUnary`, `genLogicalCond` …), so these are
definitions of their own, and the two functions recur on the parts only;
`genCond_eq` gives the conditions back in the source's form.
-/

namespace ToyC

/-- The operation of a binary operator. -/
def mapBin : BinOp → Op
  | .Add => .Add | .Sub => .Sub | .Mul => .Mul | .Div => .Div | .Mod => .Mod
  | .Lt => .Lt | .Gt => .Gt | .Le => .Le | .Ge => .Ge | .Eq => .Eq | .Ne => .Ne

/-- The targets of `continue` and `break` in a loop. -/
structure Loop where
  continueBB : Nat
  breakBB : Nat
  deriving DecidableEq, Repr, Inhabited

/-- **The state of the generator.** The vregs of the variables (`irId`) are kept by
symbol, the innermost loop first. -/
structure IRGen where
  blocks : List BasicBlock := []
  curBB : Nat := 0
  isSealed : Bool := false
  nextVreg : Nat := 0
  curReturnsVoid : Bool := false
  loops : List Loop := []
  irId : List (SymId × Nat) := []
  deriving Repr, Inhabited

namespace IRGen

/-! ## Blocks and instructions -/

/-- A fresh vreg. -/
def newVreg (g : IRGen) : Nat × IRGen := (g.nextVreg, { g with nextVreg := g.nextVreg + 1 })

/-- A fresh, empty block. -/
def newBlock (g : IRGen) : Nat × IRGen :=
  (g.blocks.length, { g with blocks := g.blocks ++ [{ id := g.blocks.length }] })

/-- Go on writing in a block. -/
def startBlock (g : IRGen) (b : Nat) : IRGen := { g with curBB := b, isSealed := false }

/-- After a terminator, begin a fresh block. -/
def ensureOpen (g : IRGen) : IRGen :=
  if g.isSealed then
    let (b, g) := g.newBlock
    g.startBlock b
  else g

/-- Change the current block. -/
def modifyCur (g : IRGen) (f : BasicBlock → BasicBlock) : IRGen :=
  { g with blocks := g.blocks.modify g.curBB f }

/-- Append an instruction. -/
def emit (g : IRGen) (inst : Inst) : IRGen :=
  g.ensureOpen.modifyCur fun bb => { bb with insts := bb.insts ++ [inst] }

/-- Give the current block its terminator. -/
def close (g : IRGen) (f : BasicBlock → BasicBlock) : IRGen :=
  { g.ensureOpen.modifyCur f with isSealed := true }

/-- Seal the current block with a jump. -/
def termJmp (g : IRGen) (target : Nat) : IRGen :=
  g.close fun bb => { bb with term := .Jmp, succ0 := target }

/-- Seal the current block with a branch. -/
def termBr (g : IRGen) (cond : Val) (t f : Nat) : IRGen :=
  g.close fun bb => { bb with term := .Br, cond, succ0 := t, succ1 := f }

/-- Seal the current block with a return. -/
def termRet (g : IRGen) (hasVal : Bool) (v : Val) : IRGen :=
  g.close fun bb => { bb with term := .Ret, retHasVal := hasVal, retVal := v }

/-- Enter a loop. -/
def pushLoop (g : IRGen) (loop : Loop) : IRGen := { g with loops := loop :: g.loops }

/-- Leave the innermost loop. -/
def popLoop (g : IRGen) : IRGen := { g with loops := g.loops.tail }

/-- The vreg of a variable. Only a bare declaration in a branch that was pruned leaves a symbol
without one: the source then has `-1`, which `generate?` does not let pass. -/
def vregOf (g : IRGen) (sym : SymId) : Nat := (g.irId.lookup sym).getD 0

/-! ## The ways of emitting a node -/

/-- The value of a variable. -/
def genVar (S : Sema) (sym : SymId) (g : IRGen) : Val × IRGen :=
  if (S.symbol sym).kind = .GlobalVar then
    let (t, g) := g.newVreg
    (.reg t, g.emit
      { op := .LoadGlobal, dst := some t, gid := (S.symbol sym).globalId.getD 0 })
  else (.reg (g.vregOf sym), g)

/-- The value of a binary operator, from the ways of lowering its operands. -/
def genBinary (op : BinOp) (lhs rhs : IRGen → Val × IRGen) (g : IRGen) : Val × IRGen :=
  let (la, g) := lhs g
  let (lb, g) := rhs g
  let (t, g) := g.newVreg
  (.reg t, g.emit { op := mapBin op, dst := some t, a := la, b := lb })

/-- The value of a unary operator. -/
def genUnary (op : UnOp) (operand : IRGen → Val × IRGen) (g : IRGen) : Val × IRGen :=
  match op with
  | .Plus => operand g
  | .Neg | .Not =>
    let (a, g) := operand g
    let (t, g) := g.newVreg
    (.reg t, g.emit { op := if op = .Neg then .Neg else .Not, dst := some t, a })

/-- The value of a call. -/
def genCall (target : FuncRef) (args : IRGen → List Val × IRGen) (g : IRGen) :
    Val × IRGen :=
  let (vs, g) := args g
  if target.returnsVoid then
    (.imm 0, g.emit { op := .Call, callee := target.name, args := vs })
  else
    let (t, g) := g.newVreg
    (.reg t, g.emit { op := .Call, dst := some t, callee := target.name, args := vs })

/-- The jumps of a short-circuit operator. -/
def genLogicalCond (isOr : Bool) (lhs rhs : Nat → Nat → IRGen → IRGen) (tBB fBB : Nat)
    (g : IRGen) : IRGen :=
  let (mid, g) := g.newBlock
  let g := if isOr then lhs tBB mid g else lhs mid fBB g
  rhs tBB fBB (g.startBlock mid)

/-- The two blocks that set the value of a short-circuit operator. -/
def genTruth (res tBB fBB endBB : Nat) (g : IRGen) : IRGen :=
  let g := (g.startBlock tBB).emit { op := .Mv, dst := some res, a := .imm 1 }
  let g := g.termJmp endBB
  let g := (g.startBlock fBB).emit { op := .Mv, dst := some res, a := .imm 0 }
  let g := g.termJmp endBB
  g.startBlock endBB

/-- The value of a short-circuit operator, from its jumps. -/
def genLogical (cond : Nat → Nat → IRGen → IRGen) (g : IRGen) : Val × IRGen :=
  let (res, g) := g.newVreg
  let (tBB, g) := g.newBlock
  let (fBB, g) := g.newBlock
  let (endBB, g) := g.newBlock
  (.reg res, genTruth res tBB fBB endBB (cond tBB fBB g))

/-- The jump on a value. -/
def genBranch (value : IRGen → Val × IRGen) (tBB fBB : Nat) (g : IRGen) : IRGen :=
  let (v, g) := value g
  g.termBr v tBB fBB

/-- The jump on a constant. -/
def genConstCond (v : Word) (tBB fBB : Nat) (g : IRGen) : IRGen :=
  g.termJmp (if v ≠ 0#32 then tBB else fBB)

/-! ## Expressions and conditions -/

mutual
/-- **Lower an expression** to a value. -/
def genExpr (S : Sema) : AExpr → IRGen → Val × IRGen
  | .number note _, g => if note.isConst then (.imm note.constValue, g) else (.imm 0, g)
  | .var note _ sym, g =>
    if note.isConst then (.imm note.constValue, g) else genVar S sym g
  | .binary note op lhs rhs, g =>
    if note.isConst then (.imm note.constValue, g)
    else genBinary op (genExpr S lhs) (genExpr S rhs) g
  | .logical note isOr lhs rhs, g =>
    if note.isConst then (.imm note.constValue, g)
    else genLogical (genLogicalCond isOr (genCond S lhs) (genCond S rhs)) g
  | .unary note op operand, g =>
    if note.isConst then (.imm note.constValue, g) else genUnary op (genExpr S operand) g
  | .call note _ args target, g =>
    if note.isConst then (.imm note.constValue, g) else genCall target (genArgs S args) g
/-- Lower the arguments of a call, left to right. -/
def genArgs (S : Sema) : List AExpr → IRGen → List Val × IRGen
  | [], g => ([], g)
  | e :: es, g =>
    let (v, g) := genExpr S e g
    let (vs, g) := genArgs S es g
    (v :: vs, g)
/-- **Lower a condition** to jumps. -/
def genCond (S : Sema) : AExpr → Nat → Nat → IRGen → IRGen
  | .number note _, tBB, fBB, g =>
    if note.isConst then genConstCond note.constValue tBB fBB g
    else genBranch (fun g => (.imm 0, g)) tBB fBB g
  | .var note _ sym, tBB, fBB, g =>
    if note.isConst then genConstCond note.constValue tBB fBB g
    else genBranch (genVar S sym) tBB fBB g
  | .binary note op lhs rhs, tBB, fBB, g =>
    if note.isConst then genConstCond note.constValue tBB fBB g
    else genBranch (genBinary op (genExpr S lhs) (genExpr S rhs)) tBB fBB g
  | .logical note isOr lhs rhs, tBB, fBB, g =>
    if note.isConst then genConstCond note.constValue tBB fBB g
    else genLogicalCond isOr (genCond S lhs) (genCond S rhs) tBB fBB g
  | .unary note op operand, tBB, fBB, g =>
    if note.isConst then genConstCond note.constValue tBB fBB g
    else match op with
      | .Not => genCond S operand fBB tBB g
      | .Plus | .Neg => genBranch (genUnary op (genExpr S operand)) tBB fBB g
  | .call note _ args target, tBB, fBB, g =>
    if note.isConst then genConstCond note.constValue tBB fBB g
    else genBranch (genCall target (genArgs S args)) tBB fBB g
end

/-- A constant lowers to an immediate. -/
theorem genExpr_const {S : Sema} {e : AExpr} (h : e.isConst = true) (g : IRGen) :
    genExpr S e g = (.imm e.constValue, g) := by
  cases e <;> simp_all [genExpr, AExpr.isConst, AExpr.constValue, AExpr.note]

/-- **The lowering of a condition as the source has it**: a constant jumps, a
short-circuit operator jumps on its operands, a negation swaps the targets, and
anything else is lowered to a value to branch on. -/
theorem genCond_eq (S : Sema) (e : AExpr) (tBB fBB : Nat) (g : IRGen) :
    genCond S e tBB fBB g =
      if e.isConst then genConstCond e.constValue tBB fBB g
      else match e with
        | .logical _ isOr lhs rhs =>
          genLogicalCond isOr (genCond S lhs) (genCond S rhs) tBB fBB g
        | .unary _ .Not operand => genCond S operand fBB tBB g
        | e => genBranch (genExpr S e) tBB fBB g := by
  cases e with
  | unary note op operand =>
    cases op <;> cases h : note.isConst <;>
      simp [genCond, genExpr, genBranch, AExpr.isConst, AExpr.constValue, AExpr.note, h]
  | _ note =>
    cases h : note.isConst <;>
      simp [genCond, genExpr, genBranch, AExpr.isConst, AExpr.constValue, AExpr.note, h]

/-! ## Statements -/

/-- Lower an assignment. -/
def genAssign (S : Sema) (sym : SymId) (value : AExpr) (g : IRGen) : IRGen :=
  let (v, g) := genExpr S value g
  if (S.symbol sym).kind = .GlobalVar then
    g.emit { op := .StoreGlobal, gid := (S.symbol sym).globalId.getD 0, a := v }
  else g.emit { op := .Mv, dst := some (g.vregOf sym), a := v }

/-- Lower the declaration of a variable: it gets its vreg before the initialiser is
lowered. -/
def genVarDecl (S : Sema) (init : AExpr) (sym : SymId) (g : IRGen) : IRGen :=
  let (v, g) := g.newVreg
  let (a, g) := genExpr S init { g with irId := (sym, v) :: g.irId }
  g.emit { op := .Mv, dst := some v, a }

/-- The jumps around a conditional without `else`. -/
def genIf (cond : Nat → Nat → IRGen → IRGen) (then_ : IRGen → IRGen) (g : IRGen) : IRGen :=
  let (tBB, g) := g.newBlock
  let (jBB, g) := g.newBlock
  let g := cond tBB jBB g
  let g := (then_ (g.startBlock tBB)).termJmp jBB
  g.startBlock jBB

/-- The jumps around a conditional. -/
def genIfElse (cond : Nat → Nat → IRGen → IRGen) (then_ else_ : IRGen → IRGen) (g : IRGen) :
    IRGen :=
  let (tBB, g) := g.newBlock
  let (jBB, g) := g.newBlock
  let (eBB, g) := g.newBlock
  let g := cond tBB eBB g
  let g := (then_ (g.startBlock tBB)).termJmp jBB
  let g := (else_ (g.startBlock eBB)).termJmp jBB
  g.startBlock jBB

/-- The jumps around a loop: the body stands before the condition. -/
def genWhile (cond : Nat → Nat → IRGen → IRGen) (body : IRGen → IRGen) (g : IRGen) : IRGen :=
  let (bBB, g) := g.newBlock
  let (cBB, g) := g.newBlock
  let (aBB, g) := g.newBlock
  let g := (g.termJmp cBB).pushLoop ⟨cBB, aBB⟩
  let g := (body (g.startBlock bBB)).termJmp cBB
  let g := cond bBB aBB (g.popLoop.startBlock cBB)
  g.startBlock aBB

mutual
/-- **Lower a statement.** -/
def genStmt (S : Sema) : AStmt → IRGen → IRGen
  | .block ss, g => genStmts S ss g
  | .empty, g => g
  | .exprStmt e, g => (genExpr S e g).2
  | .varDecl isConst _ init sym, g => if isConst then g else genVarDecl S init sym g
  | .assign _ sym value, g => genAssign S sym value g
  | .ifStmt cond then_ none, g =>
    if cond.isConst then
      if cond.constValue ≠ 0#32 then genStmt S then_ g else g
    else genIf (genCond S cond) (genStmt S then_) g
  | .ifStmt cond then_ (some else_), g =>
    if cond.isConst then
      if cond.constValue ≠ 0#32 then genStmt S then_ g else genStmt S else_ g
    else genIfElse (genCond S cond) (genStmt S then_) (genStmt S else_) g
  | .whileStmt cond body, g => genWhile (genCond S cond) (genStmt S body) g
  | .breakStmt, g => g.termJmp (g.loops.headD default).breakBB
  | .continueStmt, g => g.termJmp (g.loops.headD default).continueBB
  | .returnStmt (some value), g =>
    let (v, g) := genExpr S value g
    g.termRet true v
  | .returnStmt none, g => g.termRet false (.imm 0)
/-- Lower the statements of a block. -/
def genStmts (S : Sema) : List AStmt → IRGen → IRGen
  | [], g => g
  | s :: ss, g => genStmts S ss (genStmt S s g)
end

/-! ## Functions and modules -/

/-- Give the parameters their vregs. -/
def genParams : List (String × SymId) → IRGen → List Nat × IRGen
  | [], g => ([], g)
  | (_, sym) :: ps, g =>
    let (v, g) := g.newVreg
    let (vs, g) := genParams ps { g with irId := (sym, v) :: g.irId }
    (v :: vs, g)

/-- The generator once the body of a function is lowered and closed. -/
def genBody (S : Sema) (fn : AFuncDef) (g : IRGen) : IRGen :=
  let (entry, g) := g.newBlock
  let g := genStmt S fn.body (g.startBlock entry)
  if g.isSealed then g
  else if g.curReturnsVoid then g.termRet false (.imm 0)
  else g.termRet true (.imm 0)

/-- **Lower a function.** -/
def genFunc (S : Sema) (fn : AFuncDef) : IRFunc :=
  let (paramRegs, g) := genParams fn.params { curReturnsVoid := fn.returnsVoid }
  let g := genBody S fn g
  computeCFG
    { name := fn.name, returnsVoid := fn.returnsVoid, numParams := fn.params.length,
      paramRegs, blocks := g.blocks, numVregs := g.nextVreg }

/-- Enter the global variables at the positions of their identifiers. -/
def genGlobals (S : Sema) : List ATopLevel → List IRGlobal → List IRGlobal
  | [], globals => globals
  | .func _ :: items, globals => genGlobals S items globals
  | .global g :: items, globals =>
    if g.isConst then genGlobals S items globals
    else genGlobals S items
      (globals.set ((S.symbol g.sym).globalId.getD 0) { name := g.name, init := g.initValue })

/-- The functions of a module. -/
def genFuncs (S : Sema) : List ATopLevel → List IRFunc
  | [] => []
  | .global _ :: items => genFuncs S items
  | .func fn :: items => genFunc S fn :: genFuncs S items

/-- **Lower a module**, under the symbols of its analysis. -/
def generate (S : Sema) (m : AModule) : IRModule where
  globals := genGlobals S m.items (List.replicate S.globalCount {})
  funcs := genFuncs S m.items

end IRGen

end ToyC
