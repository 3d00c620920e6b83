import Mathlib.Data.List.Chain
import ToyC.Word

/-!
# Three-address code

The intermediate representation: functions as lists of basic blocks over virtual
registers. The records and their fields are the source's. A field that the source
leaves at `-1` when it has no meaning is an `Option` where some stage tests for it
(`dst`, `magicVreg`), and otherwise simply left at its default (`gid`, `succ0`,
`succ1`), which nothing reads. The pointer to the called function becomes its name,
the only thing the later stages read through it.
-/

namespace ToyC

/-- An operand: an immediate or a virtual register. -/
inductive Val where
  | imm (imm : Word)
  | reg (reg : Nat)
  deriving DecidableEq, Repr, Inhabited

namespace Val

/-- The register of a register operand. -/
def reg? : Val → Option Nat
  | imm _ => none
  | reg r => some r

/-- Whether the operand is an immediate. -/
def isImm : Val → Bool
  | imm _ => true
  | reg _ => false

/-- Whether the operand is a register. -/
def isReg : Val → Bool
  | imm _ => false
  | reg _ => true

end Val

/-- The operations. -/
inductive Op where
  | Add | Sub | Mul | Div | Mod | Lt | Gt | Le | Ge | Eq | Ne
  | Neg | Not | Mv | LoadGlobal | StoreGlobal | Call
  deriving DecidableEq, Repr, Inhabited

/-- Whether an operation has two operands. -/
def isBinary (op : Op) : Bool :=
  match op with
  | .Add | .Sub | .Mul | .Div | .Mod | .Lt | .Gt | .Le | .Ge | .Eq | .Ne => true
  | _ => false

/-- Whether an operation is a comparison. -/
def isCmp (op : Op) : Bool :=
  match op with
  | .Lt | .Gt | .Le | .Ge | .Eq | .Ne => true
  | _ => false

/-- An instruction. The last two fields are hints for the code generator. -/
structure Inst where
  op : Op
  dst : Option Nat := none
  a : Val := .imm 0
  b : Val := .imm 0
  gid : Nat := 0
  callee : String := ""
  args : List Val := []
  magicVreg : Option Nat := none
  unsignedDiv : Bool := false
  deriving DecidableEq, Repr, Inhabited

/-- The kinds of terminator. -/
inductive Term where
  | None | Jmp | Br | Ret
  deriving DecidableEq, Repr, Inhabited

/-- A basic block. -/
structure BasicBlock where
  id : Nat := 0
  insts : List Inst := []
  term : Term := .None
  cond : Val := .imm 0
  succ0 : Nat := 0
  succ1 : Nat := 0
  retHasVal : Bool := false
  retVal : Val := .imm 0
  preds : List Nat := []
  deriving DecidableEq, Repr, Inhabited

/-- A function. -/
structure IRFunc where
  name : String := ""
  returnsVoid : Bool := false
  numParams : Nat := 0
  paramRegs : List Nat := []
  blocks : List BasicBlock := []
  numVregs : Nat := 0
  deriving DecidableEq, Repr, Inhabited

/-- A global variable of the module, at the position of its identifier. -/
structure IRGlobal where
  name : String := ""
  init : Word := 0
  deriving DecidableEq, Repr, Inhabited

/-- A module. -/
structure IRModule where
  globals : List IRGlobal := []
  funcs : List IRFunc := []
  deriving DecidableEq, Repr, Inhabited

/-- The successors of a block: none of a return. -/
def succsOf (bb : BasicBlock) : List Nat :=
  match bb.term with
  | .Jmp => [bb.succ0]
  | .Br => [bb.succ0, bb.succ1]
  | .Ret | .None => []

/-- The predecessors of a block: one entry for each edge into it, in the order of
the blocks. -/
def predsOf (blocks : List BasicBlock) (b : Nat) : List Nat :=
  blocks.flatMap fun bb => ((succsOf bb).filter (· == b)).map fun _ => bb.id

/-- Recompute the predecessor lists of a function. -/
def computeCFG (fn : IRFunc) : IRFunc :=
  { fn with blocks := fn.blocks.mapIdx fun b bb =>
      { bb with preds := predsOf fn.blocks b } }

/-- A block of a function. -/
def IRFunc.blockAt (F : IRFunc) (b : Nat) : BasicBlock := F.blocks.getD b {}

/-- **A path through a function**: blocks, each of which is a successor of the one before. -/
def IRFunc.IsPath (F : IRFunc) (path : List Nat) : Prop :=
  path.IsChain fun b s => s ∈ succsOf (F.blockAt b)

theorem IRFunc.getElem?_blocks {F : IRFunc} {b : Nat} (hb : b < F.blocks.length) :
    F.blocks[b]? = some (F.blockAt b) := by
  simp [IRFunc.blockAt, hb]

theorem IRFunc.blockAt_mem {F : IRFunc} {b : Nat} (hb : b < F.blocks.length) :
    F.blockAt b ∈ F.blocks :=
  List.mem_of_getElem? (IRFunc.getElem?_blocks hb)

theorem IRFunc.exists_blockAt {F : IRFunc} {bb : BasicBlock} (h : bb ∈ F.blocks) :
    ∃ b < F.blocks.length, F.blockAt b = bb := by
  obtain ⟨b, hb, rfl⟩ := List.getElem_of_mem h
  exact ⟨b, hb, by simp [IRFunc.blockAt, hb]⟩

/-- A block outside a function is empty. -/
theorem IRFunc.blockAt_of_ge {F : IRFunc} {b : Nat} (hb : ¬ b < F.blocks.length) :
    F.blockAt b = {} := by
  simp [IRFunc.blockAt, List.getElem?_eq_none (Nat.le_of_not_lt hb)]

/-- A block of a function whose blocks are changed one by one. -/
theorem IRFunc.blockAt_map {F : IRFunc} {g : BasicBlock → BasicBlock} (hg : g {} = {}) (b : Nat) :
    ({ F with blocks := F.blocks.map g } : IRFunc).blockAt b = g (F.blockAt b) := by
  unfold IRFunc.blockAt
  rw [List.getD_eq_getElem?_getD, List.getD_eq_getElem?_getD, List.getElem?_map]
  cases F.blocks[b]? with
  | none => exact hg.symm
  | some bb => rfl

/-- Blocks that are numbered in order have their positions for numbers. -/
theorem IRFunc.blockAt_id {F : IRFunc} (hids : F.blocks.map (·.id) = List.range F.blocks.length)
    {b : Nat} (hb : b < F.blocks.length) : (F.blockAt b).id = b := by
  have h := congrArg (·[b]?) hids
  simpa [List.getElem?_map, IRFunc.getElem?_blocks hb, List.getElem?_range hb] using h

/-- The blocks in front of a block, the block, and those behind it. -/
theorem IRFunc.blocks_eq {F : IRFunc} {b : Nat} (hb : b < F.blocks.length) :
    F.blocks = F.blocks.take b ++ F.blockAt b :: F.blocks.drop (b + 1) := by
  have hblock : F.blockAt b = F.blocks[b] := by simp [IRFunc.blockAt, hb]
  rw [hblock, List.getElem_cons_drop, List.take_append_drop]

namespace Inst

/-- The vregs an instruction reads, without the hint: the operands of its
operation. -/
def operands (inst : Inst) : List Val :=
  match inst.op with
  | .Mv | .Neg | .Not | .StoreGlobal => [inst.a]
  | .LoadGlobal => []
  | .Call => inst.args
  | _ => [inst.a, inst.b]

end Inst

end ToyC
