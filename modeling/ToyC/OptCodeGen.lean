import ToyC.Magic
import ToyC.RegAlloc
import ToyC.StackFrame

/-!
# The optimizing code generator

Vregs live in the registers and spill slots of the allocation. Only the blocks that can be
reached are emitted, a jump to the block that comes next is left out, a comparison that
only feeds the branch behind it becomes part of the branch, and the last instruction of a
block that only feeds the return writes to `a0` itself. Operations with constants have
sequences of their own.

The definitions follow the methods of the source's class. The numbers it keeps for the
current function are a `Frame`; `dstOverride_`, `curMagicVreg_` and `curUnsigned_`, which
it sets around a call of a method, are arguments of the method; the text it writes is the
list of its items.
-/

namespace ToyC

open Rv32

/-- The comparison that holds when this one does not. -/
def invertCmp (op : Op) : Op :=
  match op with
  | .Lt => .Ge
  | .Ge => .Lt
  | .Gt => .Le
  | .Le => .Gt
  | .Eq => .Ne
  | .Ne => .Eq
  | op => op

/-! ## Constants -/

/-- The exponent of a power of two. -/
def log2exact (v : Nat) : Option Nat :=
  if v = 0 ∨ v &&& (v - 1) ≠ 0 then none else some v.log2

/-- The same, where the exponent is at least one. -/
def log2pos (v : Nat) : Option Nat := (log2exact v).filter (1 ≤ ·)

namespace OptCodeGen

/-! ## Frames -/

/-- The parts of a frame, from below: outgoing stack arguments, spill slots, saved
registers, the saved return address. -/
structure Frame where
  outArgArea : Nat
  spillBase : Nat
  calleeBase : Nat
  raOff : Nat
  frameSize : Nat
  deriving DecidableEq, Repr

/-- The frame of a function. -/
def frameOf (A : Allocation) (f : IRFunc) : Frame :=
  let outArgArea := f.maxStackArgs * 4
  let spillBase := outArgArea
  let calleeBase := spillBase + A.numSpills * 4
  let raOff := calleeBase + A.usedCallee.length * 4
  { outArgArea, spillBase, calleeBase, raOff
    frameSize := align16 (raOff + if A.isLeaf then 0 else 4) }

def loadOff : XReg → Nat → List Instr := loadOffVia XReg.a7

def storeOff : XReg → Nat → List Instr := storeOffVia XReg.a7

/-- How often a vreg is read in a function. -/
def useCount (f : IRFunc) (v : Nat) : Nat :=
  (f.blocks.flatMap fun bb => bb.insts.flatMap Inst.uses ++ bb.termUses).count v

section Emit

variable (m : IRModule) (opt : Bool) (fr : Frame) (A : Allocation)

/-- Where the spill slot of a vreg is. -/
def spillOff (v : Nat) : Nat := fr.spillBase + (A.spillSlot v).getD 0 * 4

def loadSpill (reg : XReg) (v : Nat) : List Instr := loadOff reg (spillOff fr A v)

def storeSpill (reg : XReg) (v : Nat) : List Instr := storeOff reg (spillOff fr A v)

/-! ## Values -/

/-- Get a value into some register, possibly the scratch register. -/
def toReg (v : Val) (scratch : XReg) : List Instr × XReg :=
  match v with
  | .imm i => if i = 0 then ([], XReg.zero) else ([.li scratch i], scratch)
  | .reg r =>
    match A.reg r with
    | some p => ([], p)
    | none => (loadSpill fr A scratch r, scratch)

/-- Place a value into a register. -/
def materialize (v : Val) (x : XReg) : List Instr :=
  match v with
  | .imm i => [.li x i]
  | .reg r =>
    match A.reg r with
    | some p => if p ≠ x then [.mv x p] else []
    | none => loadSpill fr A x r

variable (override : Option XReg)

/-- The register an instruction computes its result in. -/
def dstReg (v : Nat) (scratch : XReg) : XReg := (override.or (A.reg v)).getD scratch

/-- Store the result, where it was not computed in its place. -/
def writeBack (v : Nat) (x : XReg) : List Instr :=
  if override.isNone && (A.reg v).isNone then storeSpill fr A x v else []

/-! ## Strength reduction by a constant -/

def negIf (c : Word) (rd : XReg) : List Instr := if c.slt 0 then [.neg rd rd] else []

def emitMulConst (rd ra : XReg) (c : Word) : List Instr :=
  let s := scratch1
  if c = 0 then [.li rd 0]
  else if c = 1 then (if rd ≠ ra then [.mv rd ra] else [])
  else if c = -1 then [.neg rd ra]
  else
    let ac := absConst c
    match log2pos ac with
    | some k => [.shift .slli rd ra k] ++ negIf c rd
    | none =>
      match log2pos (ac - 1) with
      | some kp => [.shift .slli s ra kp, .add rd s ra] ++ negIf c rd
      | none =>
        match log2pos (ac + 1) with
        | some km => [.shift .slli s ra km, .sub rd s ra] ++ negIf c rd
        | none => [.li s c, .alu .mul rd ra s]

/-- The rounding bias for a signed division by a power of two. -/
def emitPow2Bias (s r : XReg) (k : Nat) : List Instr :=
  if k = 1 then [.shift .srli s r 31] else [.shift .srai s r 31, .shift .srli s s (32 - k)]

/-- Get a magic number into a register: the one it was hoisted to, or the scratch
register. -/
def magicReg (magicVreg : Option Nat) (magic : Word) : List Instr × XReg :=
  match magicVreg with
  | some v => toReg fr A (.reg v) XReg.a7
  | none => ([.li scratch1 magic], scratch1)

/-- The quotient by a constant, by its magic number. -/
def emitMagicQuotient (magicVreg : Option Nat) (isUnsigned : Bool) (q ra : XReg) (c : Word) :
    List Instr :=
  let t := scratch1
  let w := XReg.a7
  if isUnsigned then
    let (magic, s) := unsignedMagic c
    let (code, x) := magicReg fr A magicVreg magic
    code ++ [.alu .mulhu w ra x] ++
      if 0 < s then [.shift .srli q w s] else if q ≠ w then [.mv q w] else []
  else
    let (magic, s) := signedMagic c
    let (code, x) := magicReg fr A magicVreg magic
    code ++ [.alu .mulh w ra x] ++
      (if BitVec.slt 0 c && magic.slt 0 then [.add w w ra]
        else if c.slt 0 && BitVec.slt 0 magic then [.sub w w ra] else []) ++
      (if 0 < s then [.shift .srai w w s] else []) ++
      [.shift .srli t w 31, .add q w t]

def emitDivConst (magicVreg : Option Nat) (isUnsigned : Bool) (rd ra : XReg) (c : Word) :
    List Instr :=
  let s := scratch1
  if c = 1 then (if rd ≠ ra then [.mv rd ra] else [])
  else if c = -1 then [.neg rd ra]
  else
    match log2pos (absConst c) with
    | some k =>
      emitPow2Bias s ra k ++ [.add s ra s, .shift .srai rd s k] ++ negIf c rd
    | none =>
      if c ≠ 0 then emitMagicQuotient fr A magicVreg isUnsigned rd ra c
      else [.li s c, .alu .div rd ra s]

def emitModConst (magicVreg : Option Nat) (isUnsigned : Bool) (rd ra : XReg) (c : Word) :
    List Instr :=
  let s := scratch1
  if absConst c = 1 then [.li rd 0]
  else
    match log2pos (absConst c) with
    | some k =>
      emitPow2Bias s ra k ++
        [.add s ra s, .shift .srai s s k, .shift .slli s s k, .sub rd ra s]
    | none =>
      if isUnsigned then
        let (magic, sh) := unsignedMagic c
        let (code, x) := magicReg fr A magicVreg magic
        let q := if 0 < sh then XReg.a6 else XReg.a7
        code ++ [.alu .mulhu XReg.a7 ra x] ++
          (if 0 < sh then [.shift .srli XReg.a6 XReg.a7 sh] else []) ++
          emitMulConst XReg.a7 q c ++ [.sub rd ra XReg.a7]
      else
        emitMagicQuotient fr A magicVreg isUnsigned XReg.a6 ra c ++
          emitMulConst XReg.a7 XReg.a6 c ++ [.sub rd ra XReg.a7]

/-! ## Instructions -/

/-- The value of an operand that fits the immediate of an instruction. -/
def smallImm (v : Val) : Option Int :=
  match v with
  | .imm i => if fits12 i.toInt then some i.toInt else none
  | .reg _ => none

/-- The negative of an operand, where that fits. -/
def smallNegImm (v : Val) : Option Int :=
  match v with
  | .imm i => if fits12 (-i.toInt) then some (-i.toInt) else none
  | .reg _ => none

/-- The instructions of an operation on two registers. -/
def opCode (op : Op) (d a b : XReg) : List Instr :=
  match op with
  | .Add => [.add d a b]
  | .Sub => [.sub d a b]
  | .Mul => [.alu .mul d a b]
  | .Div => [.alu .div d a b]
  | .Mod => [.alu .rem d a b]
  | .Lt => [.alu .slt d a b]
  | .Gt => [.alu .slt d b a]
  | .Le => [.alu .slt d b a, .alui .xori d d 1]
  | .Ge => [.alu .slt d a b, .alui .xori d d 1]
  | .Eq => [.sub d a b, .seqz d d]
  | .Ne => [.sub d a b, .snez d d]
  | _ => []

/-- An operation on one operand: get it into a register, compute, store the result. -/
def emitUnary (dst : Nat) (v : Val) (code : XReg → XReg → List Instr) : List Instr :=
  let (load, ra) := toReg fr A v scratch0
  let rd := dstReg A override dst scratch0
  load ++ code rd ra ++ writeBack fr A override dst rd

/-- An operation on two registers. -/
def emitGeneral (inst : Inst) : List Instr :=
  let dst := inst.dst.getD 0
  let (loadA, ra) := toReg fr A inst.a scratch0
  let (loadB, rb) := toReg fr A inst.b scratch1
  let rd := dstReg A override dst scratch0
  loadA ++ loadB ++ opCode inst.op rd ra rb ++ writeBack fr A override dst rd

def emitBinary (inst : Inst) : List Instr :=
  let unary := emitUnary fr A override (inst.dst.getD 0)
  let general := emitGeneral fr A override inst
  match inst.op with
  | .Add =>
    match smallImm inst.b, smallImm inst.a with
    | some i, _ => unary inst.a fun rd ra => [.addi rd ra i]
    | none, some i => unary inst.b fun rd rb => [.addi rd rb i]
    | none, none => general
  | .Sub =>
    match smallNegImm inst.b with
    | some i => unary inst.a fun rd ra => [.addi rd ra i]
    | none => general
  | .Lt =>
    match smallImm inst.b with
    | some i => unary inst.a fun rd ra => [.alui .slti rd ra i]
    | none => general
  | .Eq => if inst.b = .imm 0 then unary inst.a fun rd ra => [.seqz rd ra] else general
  | .Ne => if inst.b = .imm 0 then unary inst.a fun rd ra => [.snez rd ra] else general
  | .Mul =>
    match inst.a, inst.b with
    | .imm c, v => unary v fun rd ra => emitMulConst rd ra c
    | v, .imm c => unary v fun rd ra => emitMulConst rd ra c
    | _, _ => general
  | .Div =>
    match opt, inst.b with
    | true, .imm c =>
      unary inst.a fun rd ra => emitDivConst fr A inst.magicVreg inst.unsignedDiv rd ra c
    | _, _ => general
  | .Mod =>
    match opt, inst.b with
    | true, .imm c =>
      unary inst.a fun rd ra => emitModConst fr A inst.magicVreg inst.unsignedDiv rd ra c
    | _, _ => general
  | _ => general

/-- The stack arguments of a call, from slot `k` on and the last one first. -/
def stackArgs : Nat → List Val → List Instr
  | _, [] => []
  | k, v :: vs =>
    stackArgs (k + 1) vs ++ (materialize fr A v scratch0 ++ storeOff scratch0 (k * 4))

/-- The register arguments of a call, from register `x` on. -/
def regArgs : XReg → List Val → List Instr
  | _, [] => []
  | x, v :: vs => materialize fr A v x ++ regArgs (x + 1) vs

/-- What brings the result of a call to its place. -/
def callResult (dst : Option Nat) : List Instr :=
  match dst with
  | none => []
  | some d =>
    match override.or (A.reg d) with
    | some x => if x ≠ XReg.a0 then [.mv x XReg.a0] else []
    | none => storeSpill fr A XReg.a0 d

/-- The code of a call in front of the jump. -/
def callArgs (inst : Inst) : List Instr :=
  stackArgs fr A 0 (inst.args.drop 8) ++ regArgs fr A XReg.a0 (inst.args.take 8)

def emitCall (inst : Inst) : List Instr :=
  callArgs fr A inst ++ [.call inst.callee] ++ callResult fr A override inst.dst

/-- The code of an instruction. -/
def emitInst (inst : Inst) : List Instr :=
  let dst := inst.dst.getD 0
  let name := m.globalName inst.gid
  match inst.op with
  | .Mv =>
    let rd := dstReg A override dst scratch0
    materialize fr A inst.a rd ++ writeBack fr A override dst rd
  | .LoadGlobal =>
    let rd := dstReg A override dst scratch0
    [.luiHi rd name, .lwLo rd name rd] ++ writeBack fr A override dst rd
  | .StoreGlobal =>
    let (load, ra) := toReg fr A inst.a scratch0
    load ++ [.luiHi scratch1 name, .swLo ra name scratch1]
  | .Neg => emitUnary fr A override dst inst.a fun rd ra => [.neg rd ra]
  | .Not => emitUnary fr A override dst inst.a fun rd ra => [.seqz rd ra]
  | .Call => emitCall fr A override inst
  | _ => emitBinary opt fr A override inst

/-! ## Blocks -/

variable (f : IRFunc)

/-- The end of a function, without the return itself. -/
def restoreRegs : Nat → List XReg → List Instr
  | _, [] => []
  | off, x :: xs => loadOff x off ++ restoreRegs (off + 4) xs

def restore : List Instr :=
  restoreRegs fr.calleeBase A.usedCallee ++
    (if A.isLeaf then [] else loadOff XReg.ra fr.raOff) ++
    if 0 < fr.frameSize then closeFrame fr.frameSize else []

def emitEpilogue : List Instr := restore fr A ++ [.ret]

/-- The comparison of a branch: it is taken if and only if the comparison holds, or does
not. -/
def emitBranchCmp (op : Op) (a b : Val) (lbl : String) (negate : Bool) : List Instr :=
  let (loadA, ra) := toReg fr A a scratch0
  let (loadB, rb) := toReg fr A b scratch1
  loadA ++ loadB ++
    match if negate then invertCmp op else op with
    | .Lt => [.branch .blt ra rb lbl]
    | .Ge => [.branch .bge ra rb lbl]
    | .Gt => [.branch .blt rb ra lbl]
    | .Le => [.branch .bge rb ra lbl]
    | .Eq => [.branch .beq ra rb lbl]
    | .Ne => [.branch .bne ra rb lbl]
    | _ => []

/-- The code of a terminator, given the block that comes next and the last instruction
where it is part of the terminator. -/
def emitTerm (bb : BasicBlock) (next : Option Nat) (fused retFuse : Option Inst) : List Instr :=
  let lblT := f.label bb.succ0
  let lblF := f.label bb.succ1
  match bb.term with
  | .Jmp => if some bb.succ0 ≠ next then [.j lblT] else []
  | .Br =>
    match fused with
    | some inst =>
      if some bb.succ1 = next then emitBranchCmp fr A inst.op inst.a inst.b lblT false
      else if some bb.succ0 = next then emitBranchCmp fr A inst.op inst.a inst.b lblF true
      else emitBranchCmp fr A inst.op inst.a inst.b lblT false ++ [.j lblF]
    | none =>
      let (load, rc) := toReg fr A bb.cond scratch0
      load ++
        if some bb.succ1 = next then [.bnez rc lblT]
        else if some bb.succ0 = next then [.beqz rc lblF]
        else [.bnez rc lblT, .j lblF]
  | .Ret =>
    (match retFuse with
      | some inst => emitInst m opt fr A (some XReg.a0) inst
      | none => if bb.retHasVal then materialize fr A bb.retVal XReg.a0 else []) ++
      emitEpilogue fr A
  | .None => emitEpilogue fr A

/-- Whether an instruction writes a value that is read once, as this operand. -/
def feedsOnly (inst : Inst) (v : Val) : Bool :=
  match inst.dst with
  | some d => v.reg? == some d && useCount f d == 1
  | none => false

/-- The last comparison of a block, where only its branch reads it. -/
def fusedCmp (bb : BasicBlock) : Option Inst :=
  if bb.term = .Br then
    bb.insts.getLast?.filter fun last => isCmp last.op && feedsOnly f last bb.cond
  else none

/-- The last instruction of a block, where only its return reads it. -/
def fusedRet (bb : BasicBlock) : Option Inst :=
  if bb.term = .Ret ∧ bb.retHasVal then
    bb.insts.getLast?.filter fun last => feedsOnly f last bb.retVal
  else none

/-- The instructions of a block that are emitted by themselves. -/
def plainInsts (bb : BasicBlock) : List Inst :=
  if (fusedCmp f bb).isSome || (fusedRet f bb).isSome then bb.insts.dropLast else bb.insts

/-- The code of a block behind its label. -/
def blockCode (bb : BasicBlock) (next : Option Nat) : List Instr :=
  (plainInsts f bb).flatMap (emitInst m opt fr A none) ++
    emitTerm m opt fr A f bb next (fusedCmp f bb) (fusedRet f bb)

def emitBlock (bb : BasicBlock) (next : Option Nat) : List Item :=
  .label (f.label bb.id) :: (blockCode m opt fr A f bb next).map .instr

/-- The blocks in an order, each with the one that comes next. -/
def emitBlocks : List Nat → List Item
  | [] => []
  | b :: bs => emitBlock m opt fr A f (f.blockAt b) bs.head? ++ emitBlocks bs

/-! ## Functions -/

/-- Visit the successors of a block: what was not reached before is reached now, and
comes on the stack. -/
def visit (ss : List Nat) (st : List Nat × List Nat) : List Nat × List Nat :=
  ss.foldl (fun (stack, reached) s =>
    if s ∈ reached then (stack, reached) else (s :: stack, s :: reached)) st

/-- Walk through the blocks that can be reached, for at most so many steps. -/
def reachLoop : Nat → List Nat × List Nat → List Nat
  | 0, (_, reached) => reached
  | _, ([], reached) => reached
  | n + 1, (b :: stack, reached) =>
    reachLoop n (visit (succsOf (f.blockAt b)) (stack, reached))

/-- The blocks that can be reached from the first one. -/
def reach : List Nat := reachLoop f f.blocks.length ([0], [0])

/-- **The blocks that are emitted**, in index order. -/
def order : List Nat := (List.range f.blocks.length).filter (· ∈ reach f)

/-- Move the incoming parameters, from number `i` on, to their places. -/
def moveParams : Nat → List Nat → List Instr
  | _, [] => []
  | i, v :: vs =>
    (if i < 8 then
      match A.reg v with
      | some p => if p ≠ XReg.a0 + i then [.mv p (XReg.a0 + i)] else []
      | none => storeSpill fr A (XReg.a0 + i) v
    else
      let incoming := fr.frameSize + (i - 8) * 4
      match A.reg v with
      | some p => loadOff p incoming
      | none => loadOff scratch0 incoming ++ storeSpill fr A scratch0 v) ++
      moveParams (i + 1) vs

/-- Save some registers. -/
def saveRegs : Nat → List XReg → List Instr
  | _, [] => []
  | off, x :: xs => storeOff x off ++ saveRegs (off + 4) xs

/-- The beginning of a function. -/
def prologue : List Instr :=
  (if 0 < fr.frameSize then openFrame fr.frameSize else []) ++
    (if A.isLeaf then [] else storeOff XReg.ra fr.raOff) ++
    saveRegs fr.calleeBase A.usedCallee ++
    moveParams fr A 0 (f.paramRegs.take f.numParams)

/-- **The code of a function.** -/
def emitFunc : List Item :=
  let fr := frameOf A f
  [.globl f.name, .p2align 1, .label f.name] ++ (prologue fr A f).map .instr ++
    emitBlocks m opt fr A f (order f)

end Emit

/-- The code of some functions. -/
def emitFuncs (S : Sorting) (m : IRModule) (opt : Bool) (n : Nat) :
    List IRFunc → Outcome (List Item)
  | [] => .ok []
  | f :: fs => do
    let A ← allocateRegisters S f n
    let rest ← emitFuncs S m opt n fs
    .ok (emitFunc m opt A f ++ rest)

end OptCodeGen

/-- **The assembly of a module.** -/
def generateAsmOpt (S : Sorting) (m : IRModule) (opt : Bool) (n : Nat) : Outcome (List Item) := do
  let code ← OptCodeGen.emitFuncs S m opt n m.funcs
  .ok (emitData m ++ [.text] ++ code)

end ToyC
