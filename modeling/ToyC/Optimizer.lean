import ToyC.Cse
import ToyC.Inlining
import ToyC.Lib.Pipeline
import ToyC.MagicHints
import ToyC.OptCodeGen

/-!
# The optimizer

The driver inlines first, in the module as a whole, and then runs the other passes on one function
after the other: constants are folded and divisions marked, the structural passes go in rounds until
none of them changes anything, then the passes on loops follow, and rounds of cleaning up. Without
optimization only dead code is eliminated.

The passes and their order are data here, a pipeline for each function (`stages`), so that what
holds of all runs of the optimizer follows from what holds of each pass. Two small passes that have
no module of their own are defined first.
-/

namespace ToyC

open Pipeline

/-! ## The remaining passes -/

/-- Remove the common subexpressions of all blocks. -/
def cse (F : IRFunc) : IRFunc × Bool :=
  ({ F with blocks := F.blocks.map fun bb => (cseBlock bb).1 },
    F.blocks.any fun bb => (cseBlock bb).2)

/-- A branch on a constant becomes a jump. -/
def threadJump (bb : BasicBlock) : Option BasicBlock :=
  match bb.term, bb.cond with
  | .Br, .imm c =>
    some { bb with
      term := .Jmp
      succ0 := if c ≠ 0#32 then bb.succ0 else bb.succ1
      succ1 := 0
      cond := .imm 0 }
  | _, _ => none

/-- **Jump threading**, with whether it changed anything. -/
def jumpThreading (F : IRFunc) : IRFunc × Bool :=
  ({ F with blocks := F.blocks.map fun bb => (threadJump bb).getD bb },
    F.blocks.any fun bb => (threadJump bb).isSome)

/-- Walk through the blocks that can be reached, for at most so many steps. -/
def reachableFrom (F : IRFunc) : Nat → List Nat × List Nat → List Nat
  | 0, (_, reached) => reached
  | _, ([], reached) => reached
  | n + 1, (b :: stack, reached) =>
    reachableFrom F n (OptCodeGen.visit ((succsOf (F.blockAt b)).filter (· < F.blocks.length))
      (stack, reached))

/-- **Unreachable block elimination**: the blocks stay, without their instructions. -/
def unreachableElim (F : IRFunc) : IRFunc :=
  let reached := reachableFrom F F.blocks.length ([0], [0])
  { F with
    blocks := F.blocks.mapIdx fun b bb => if b ∈ reached then bb else { bb with insts := [] } }

/-! ## The driver -/

/-- The passes over a function. -/
inductive Pass where
  | constFold | cse | copyProp | constProp | peephole | jumpThreading
  | deadCodeElim | markUnsignedDiv | licm
  | hoistLoopConstants | hoistMagicDiv | hoistDivModConstants | unreachableElim
  deriving DecidableEq, Repr

/-- **What a pass does.** Those in the first line report whether they changed anything. The folder
divides as the target does here, and tables have an entry for everything; `Pass.checked` is the pass
as the host does it. -/
def Pass.exec (n : Nat) (p : Pass) (F : IRFunc) : Outcome (IRFunc × Bool) :=
  let unreported (x : Outcome IRFunc) : Outcome (IRFunc × Bool) := do
    let F ← x
    .ok (F, false)
  match p with
  | .constFold => .ok (ToyC.constFold F)
  | .cse => .ok (ToyC.cse F)
  | .copyProp => .ok (ToyC.copyProp F)
  | .constProp => .ok (ToyC.constProp F)
  | .peephole => .ok (ToyC.peephole F)
  | .jumpThreading => .ok (ToyC.jumpThreading F)
  | .deadCodeElim => unreported (ToyC.deadCodeElim F n)
  | .markUnsignedDiv => unreported (ToyC.markUnsignedDiv F n)
  | .licm => unreported (ToyC.licm F n)
  | .hoistLoopConstants => unreported (ToyC.hoistLoopConstants F n)
  | .hoistMagicDiv => unreported (ToyC.hoistMagicDiv F n)
  | .hoistDivModConstants => unreported (ToyC.hoistDivModConstants F n)
  | .unreachableElim => .ok (ToyC.unreachableElim F, false)

/-- **The passes over a function**, in the order in which they are called. -/
def stages (opt : Bool) : List (Stage Pass) :=
  if opt then [
    -- folding, and marks before the definitions that prove them are gone
    .pass .constFold,
    .pass .deadCodeElim,
    .pass .markUnsignedDiv,
    -- the structural passes
    .rounds 12 [.constFold, .cse, .copyProp, .constProp, .peephole, .jumpThreading] [.deadCodeElim],
    .pass .deadCodeElim,
    -- loops
    .pass .licm,
    .pass .hoistLoopConstants,
    .pass .markUnsignedDiv,
    .pass .hoistMagicDiv,
    .pass .hoistDivModConstants,
    .pass .deadCodeElim,
    -- cleaning up
    .rounds 4 [.constFold, .constProp, .copyProp, .peephole] [],
    .pass .deadCodeElim,
    .pass .unreachableElim,
    .pass .deadCodeElim]
  else [.pass .deadCodeElim, .pass .deadCodeElim]

/-- The functions of a module, one after the other, for whatever a pass does. -/
def optimizeFuncs (exec : Pass → IRFunc → Outcome (IRFunc × Bool)) (opt : Bool) :
    List IRFunc → Outcome (List IRFunc)
  | [] => .ok []
  | F :: Fs => do
    let F ← runStages exec (stages opt) F
    let Fs ← optimizeFuncs exec opt Fs
    .ok (F :: Fs)

/-- The module the passes over functions start from. -/
def inlined (m : IRModule) (opt : Bool) : IRModule := if opt then inlineFunctions m else m

/-- **The optimizer**, by what its passes say; `optimizeIR?` is the one of the host. -/
def optimizeIR (m : IRModule) (opt : Bool) (n : Nat) : Outcome IRModule := do
  let m := inlined m opt
  let funcs ← optimizeFuncs (Pass.exec n) opt m.funcs
  .ok { m with funcs }

end ToyC
