import Mathlib.Algebra.GroupWithZero.Nat
import ToyC.IR

/-!
# Inlining

A call of a small function that is one block and ends with a return is replaced by the instructions
of the function. The vregs of the callee are numbered behind those of the caller, the parameters are
assigned first and the result last. Functions are changed in place, one after the other, so a callee
that stands in front of its caller has been inlined into already; sweeps over the module are repeated
as long as one inlines something, up to five times.
-/

namespace ToyC

/-! ## One call -/

/-- The number of instructions of a function. -/
def instCount (F : IRFunc) : Nat := (F.blocks.map (·.insts.length)).sum

/-- **What is inlined**: one block of at most 24 instructions that returns, but not `main`. -/
def inlinable (G : IRFunc) : Bool :=
  G.blocks.length = 1 && (G.blockAt 0).term = .Ret && G.name ≠ "main" && instCount G ≤ 24

/-- An operand, its vreg renumbered. -/
def cloneVal (vBase : Nat) : Val → Val
  | .imm i => .imm i
  | .reg r => .reg (r + vBase)

/-- An instruction, its vregs renumbered. -/
def cloneInst (vBase : Nat) (inst : Inst) : Inst :=
  { inst with
    dst := inst.dst.map (· + vBase)
    a := cloneVal vBase inst.a
    b := cloneVal vBase inst.b
    args := inst.args.map (cloneVal vBase) }

/-- The assignments of the arguments to the parameters of the callee. -/
def inlineParams (vBase : Nat) (params : List Nat) (args : List Val) : List Inst :=
  List.zipWith (fun p a => { op := .Mv, dst := some (p + vBase), a }) params args

/-- The assignment of the result. -/
def inlineResult (vBase : Nat) (bb : BasicBlock) (dst : Option Nat) : List Inst :=
  match dst with
  | none => []
  | some d => if bb.retHasVal then [{ op := .Mv, dst := some d, a := cloneVal vBase bb.retVal }] else []

/-- **What a call is replaced by.** -/
def inlineCall (G : IRFunc) (vBase : Nat) (inst : Inst) : List Inst :=
  inlineParams vBase (G.paramRegs.take G.numParams) inst.args ++
    (G.blockAt 0).insts.map (cloneInst vBase) ++ inlineResult vBase (G.blockAt 0) inst.dst

/-! ## The sweeps -/

/-- The function a name stands for: the last one that has it. -/
def byName (funcs : List IRFunc) (name : String) : Option Nat :=
  (List.range funcs.length).reverse.find? fun j => (funcs.getD j {}).name = name

/-- The callee that is inlined at an instruction of the function with a number, if there is one. -/
def inlinedCallee (funcs : List IRFunc) (i : Nat) (inst : Inst) : Option IRFunc :=
  if inst.op = .Call then
    match byName funcs inst.callee with
    | none => none
    | some j =>
      let G := funcs.getD j {}
      if j ≠ i ∧ inlinable G = true ∧ inst.args.length = G.numParams then some G else none
  else none

/-- The instructions of a block, with the number of vregs of the function and whether anything was
inlined. -/
def inlineInsts (callee : Inst → Option IRFunc) : Nat → List Inst → List Inst × Nat × Bool
  | nv, [] => ([], nv, false)
  | nv, inst :: insts =>
    match callee inst with
    | some G =>
      let (insts, nv', _) := inlineInsts callee (nv + G.numVregs) insts
      (inlineCall G nv inst ++ insts, nv', true)
    | none =>
      let (insts, nv, any) := inlineInsts callee nv insts
      (inst :: insts, nv, any)

/-- The blocks of a function. -/
def inlineBlocks (callee : Inst → Option IRFunc) : Nat → List BasicBlock → List BasicBlock × Nat × Bool
  | nv, [] => ([], nv, false)
  | nv, bb :: bbs =>
    let (insts, nv, any) := inlineInsts callee nv bb.insts
    let (bbs, nv, any') := inlineBlocks callee nv bbs
    ({ bb with insts } :: bbs, nv, any || any')

/-- **Inline into the function with a number.** -/
def inlineFunc (funcs : List IRFunc) (i : Nat) : IRFunc × Bool :=
  let F := funcs.getD i {}
  let (blocks, numVregs, any) := inlineBlocks (inlinedCallee funcs i) F.numVregs F.blocks
  ({ F with blocks, numVregs }, any)

/-- One sweep, over the functions from a number on. -/
def inlineFrom : Nat → Nat → List IRFunc → List IRFunc × Bool
  | 0, _, funcs => (funcs, false)
  | k + 1, i, funcs =>
    let (F, any) := inlineFunc funcs i
    let (funcs, any') := inlineFrom k (i + 1) (funcs.set i F)
    (funcs, any || any')

/-- **One sweep**, with whether it inlined anything. -/
def inlineSweep (funcs : List IRFunc) : List IRFunc × Bool := inlineFrom funcs.length 0 funcs

/-- Sweeps, as long as they inline something and for at most so many times. -/
def inlineSweeps : Nat → List IRFunc → List IRFunc
  | 0, funcs => funcs
  | k + 1, funcs =>
    let (funcs, any) := inlineSweep funcs
    if any then inlineSweeps k funcs else funcs

/-- **The pass.** -/
def inlineFunctions (m : IRModule) : IRModule := { m with funcs := inlineSweeps 5 m.funcs }

end ToyC
